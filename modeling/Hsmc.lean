import Hsmc.Abstract.Calls
import Hsmc.Abstract.Core
import Hsmc.Abstract.Grammar
import Hsmc.Abstract.Meaning
import Hsmc.Abstract.Picture
import Hsmc.Abstract.Plan
import Hsmc.Abstract.Text
import Hsmc.Lib.Bounded
import Hsmc.Lib.Codes
import Hsmc.Lib.Countdown
import Hsmc.Lib.Except
import Hsmc.Lib.Forall2
import Hsmc.Lib.Nesting
import Hsmc.Lib.Offers
import Hsmc.Lib.ParentTree
import Hsmc.Lib.Slices
import Hsmc.Lib.Tables
import Hsmc.Lib.Trail
import Hsmc.Lib.Words
import Hsmc.Link.Asserts
import Hsmc.Link.Build
import Hsmc.Link.Calls
import Hsmc.Link.Checks
import Hsmc.Link.Clocks
import Hsmc.Link.Defaults
import Hsmc.Link.Dispatch
import Hsmc.Link.Drain
import Hsmc.Link.Effects
import Hsmc.Link.Emits
import Hsmc.Link.Glossary
import Hsmc.Link.Granted
import Hsmc.Link.Hash
import Hsmc.Link.Intern
import Hsmc.Link.Layout
import Hsmc.Link.Loop
import Hsmc.Link.Lowers
import Hsmc.Link.Means
import Hsmc.Link.MeansCalls
import Hsmc.Link.MeansStep
import Hsmc.Link.Moves
import Hsmc.Link.Names
import Hsmc.Link.Order
import Hsmc.Link.Parsed
import Hsmc.Link.Paths
import Hsmc.Link.Picture
import Hsmc.Link.Reach
import Hsmc.Link.Reads
import Hsmc.Link.Roomier
import Hsmc.Link.Rows
import Hsmc.Link.Scripts
import Hsmc.Link.Serve
import Hsmc.Link.Simulate
import Hsmc.Link.Sound
import Hsmc.Link.Step
import Hsmc.Link.Text
import Hsmc.Link.Timely
import Hsmc.Link.TimerOps
import Hsmc.Link.Timers
import Hsmc.Link.Tree
import Hsmc.Link.Twins
import Hsmc.Link.Uses
import Hsmc.Link.Waits
import Hsmc.Link.Walks
import Hsmc.Link.Wording
import Hsmc.Macros.Asserts
import Hsmc.Macros.Codegen
import Hsmc.Macros.Ir
import Hsmc.Macros.Parse
import Hsmc.Macros.Picture
import Hsmc.Macros.Tokens
import Hsmc.Macros.Trace
import Hsmc.Macros.Validate
import Hsmc.Runtime.Drives
import Hsmc.Runtime.Emits
import Hsmc.Runtime.Journal
import Hsmc.Runtime.Machine
import Hsmc.Runtime.Run
import Hsmc.Runtime.Scripts
import Hsmc.Runtime.Timers
import Hsmc.Safety.Active
import Hsmc.Safety.Armed
import Hsmc.Safety.Bounds
import Hsmc.Safety.Calls
import Hsmc.Safety.Clock
import Hsmc.Safety.Countdown
import Hsmc.Safety.Current
import Hsmc.Safety.Defaults
import Hsmc.Safety.Depths
import Hsmc.Safety.Dispatch
import Hsmc.Safety.Drives
import Hsmc.Safety.Durings
import Hsmc.Safety.Frame
import Hsmc.Safety.Grammar
import Hsmc.Safety.Hash
import Hsmc.Safety.Meaning
import Hsmc.Safety.Merges
import Hsmc.Safety.Names
import Hsmc.Safety.Order
import Hsmc.Safety.Overflow
import Hsmc.Safety.Picture
import Hsmc.Safety.Punctual
import Hsmc.Safety.Queue
import Hsmc.Safety.Quiescent
import Hsmc.Safety.Race
import Hsmc.Safety.Replay
import Hsmc.Safety.Report
import Hsmc.Safety.Returns
import Hsmc.Safety.Room
import Hsmc.Safety.Shutdown
import Hsmc.Safety.Terminate
import Hsmc.Safety.Text
import Hsmc.Safety.Ties
import Hsmc.Safety.Timers
import Hsmc.Safety.Twins
import Hsmc.Safety.Valid
import Hsmc.Safety.Wakes
import Hsmc.Safety.Wrap
import Hsmc.Safety.Written
