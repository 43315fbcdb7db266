import Harbormaster.ControlPlane.Quarantine
import Harbormaster.Engine
import Harbormaster.Foundation.Announcement
import Harbormaster.Inspector.HeaderNames
import Harbormaster.Inspector.Projection
import Harbormaster.Inspector.Stamping

/-! # The canonical store

The inspector's handler of one raw arrival writes a file for each of its parts and
announces it on the bus. A message is delivered again when its handling fails or the
process dies, possibly on another day, and then the same files are written again. What a
consumer of an announcement finds in the file depends on that.
-/

namespace Harbormaster

open Announcement ControlPlane Inspector

/-! ## The handler -/

section Handler

variable (runtime : Runtime) (inspector : FileInspector) (objects : String → Option Content)

end Handler

/-! ## The names of the files -/

variable {runtime : Runtime} {inspector : FileInspector} {objects : String → Option Content}
variable {c c' : Classification} {records : List CanonicalRecord}

namespace SamePart

end SamePart

section Days

variable (runtime inspector objects)

end Days

end Harbormaster
