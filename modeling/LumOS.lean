import LumOS.Pmm.Null
import LumOS.Pmm.Terminates
import LumOS.Pmm.BitRanges
import LumOS.Pmm.Fills
import LumOS.Pmm.Hint
import LumOS.Pmm.Accesses
import LumOS.Pmm.Foreign
import LumOS.Pmm.Drain
import LumOS.Pmm.Undo
import LumOS.Pmm.History
import LumOS.Pmm.Journal
import LumOS.Pmm.Sections
import LumOS.Kernel.Main
import LumOS.Kernel.Backing
import LumOS.Boot.Window
import LumOS.Libc.Logf
import LumOS.Libc.Memory
import LumOS.Libc.Numeral
import LumOS.Libc.CeilPowTwo
import LumOS.Libc.Buffers
import LumOS.Keyboard.Typing
import LumOS.Keyboard.Locks
import LumOS.Timer.Sleep
import LumOS.Interrupts.Stubs
import LumOS.Interrupts.Tables
import LumOS.Tty.Backspace
import LumOS.Tty.Tabs
import LumOS.Interrupts.Exceptions
import LumOS.Interrupts.Progress
import LumOS.Serial.Com
