import Officium.Types
import Officium.Dissonance
import Officium.Builtins
import Officium.Env
import Officium.Library.Runs
import Officium.Machine
import Officium.Steps
import Officium.Turns
import Officium.Slicing
import Officium.WellFormed
import Officium.Purity
import Officium.Akin
import Officium.Lockstep
import Officium.Bases
import Officium.MonadLaws
import Officium.LiftLaws
import Officium.Reference
import Officium.Adequacy
import Officium.Library.Bounded
import Officium.Check
import Officium.Scopes
import Officium.Lexer
import Officium.Parser
import Officium.Library.Utf8
import Officium.Indexed
import Officium.Agreement
import Officium.FrontEnd
import Officium.Layout
import Officium.Written
import Officium.Expressions
import Officium.Heads
import Officium.Unify
import Officium.Inference
import Officium.Rules
import Officium.Typing
import Officium.TypedValues
import Officium.Soundness
import Officium.Codes
import Officium.Legality
import Officium.Levels
import Officium.TypeSafety
import Officium.Cells
import Officium.Stretto
import Officium.Chains
import Officium.Isolation
import Officium.Plans
import Officium.Library.Descent
import Officium.Resolution
import Officium.Termination
import Officium.Bounds
import Officium.Completeness
import Officium.Principal
import Officium.Demands
import Officium.Unifiers
import Officium.Drivers
import Officium.Cadence
import Officium.Kernel.Usermode
import Officium.Library.Clients
import Officium.Kernel.Frames
import Officium.Library.Plays
import Officium.Kernel.Tasks
import Officium.Kernel.Wakeups
import Officium.Kernel.Ready
import Officium.Kernel.Organ
import Officium.Kernel.Manual
import Officium.Kernel.Console
import Officium.Kernel.Prompt
import Officium.Audio.Grammar
import Officium.Audio.Roundtrip
import Officium.Audio.Inverse
import Officium.Audio.Scoping
import Officium.Audio.Exposition
import Officium.Composition
import Officium.Respacing
import Officium.Unguarded
import Officium.Depths
import Officium.Nested
import Officium.Library.Sweeps
import Officium.Audio.Playing
import Officium.Kernel.Celebrare
import Officium.Audio.Voices
import Officium.Kernel.Ring
import Officium.Kernel.Refills
import Officium.Library.Streaks
import Officium.Kernel.Descriptors
import Officium.Kernel.PageTables
import Officium.Kernel.UserPages
import Officium.Kernel.EnsureMapped
import Officium.Gaps
import Officium.Places
import Officium.Sugar
import Officium.Rows
import Officium.SungText
import Officium.Lowering
import Officium.PlainForm
import Officium.SungForm
import Officium.Endings
import Officium.Appending
import Officium.Kernel.Synthesis
import Officium.Library.Stacks
import Officium.Kernel.Trampolines
import Officium.Kernel.Shell
import Officium.Kernel.Heap
import Officium.Kernel.Pci
import Officium.Mirror
