import Yk.Pack.Values
import Yk.Pack.Types
import Yk.Pack.Casts
import Yk.Trace.Renamer
import Yk.Trace.Tir
import Yk.Trace.Guards
import Yk.Trace.Trim
import Yk.Trace.Renaming
import Yk.Trace.Steps
import Yk.Trace.Scopes
import Yk.Trace.Capture
import Yk.Trace.Decls
import Yk.Bh.Memory
import Yk.Bh.Interp
import Yk.Bh.Frames
import Yk.Bh.Calls
