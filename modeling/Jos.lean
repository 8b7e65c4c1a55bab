import Jos.Memory
import Jos.LibString
import Jos.CString
import Jos.Console
import Jos.Screen
import Jos.ConsoleInv
import Jos.Glyph
import Jos.Terminal
import Jos.ScreenRefinement
import Jos.Devices
import Jos.Escape
import Jos.Agreement
import Jos.ControlSequence
import Jos.Sgr
import Jos.Ring
import Jos.Input
import Jos.Overrun
import Jos.Keyboard
import Jos.Mouse
import Jos.Fallible
import Jos.Loop
import Jos.Linked
import Jos.CallStack
import Jos.Printfmt
import Jos.Format
import Jos.FormatRules
import Jos.FormatLaws
import Jos.Snprintf
import Jos.Numeral
import Jos.Strtol
import Jos.NumberGrammar
import Jos.Directive
import Jos.NumberField
import Jos.Printf
import Jos.Messages
import Jos.StringField
import Jos.Precision
import Jos.ErrorCode
import Jos.Counts
import Jos.Readline
import Jos.Echo
import Jos.Literal
import Jos.Palette
import Jos.Monitor
import Jos.Kdebug
import Jos.Bisect
import Jos.SymbolSearch
import Jos.Exec
import Jos.Backtrace
import Jos.TestBacktrace
import Jos.Disk
import Jos.Boot
import Jos.UpToMem
import Jos.Ansi
import Jos.Transcript
import Jos.Commands
import Jos.DebugLookup
import Jos.Session
import Jos.Running
import Jos.Panic
import Jos.Polling
import Jos.Typing
import Jos.Paging
import Jos.Segments
import Jos.Pc
import Jos.Start
import Jos.PowerOn
import Jos.Transmit
import Jos.Formats
