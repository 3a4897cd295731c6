import ContainerProbe.Compound.File
import ContainerProbe.Zip.Archive
import ContainerProbe.Gzip.Member

/-!
# Reading a container from its bytes

The reader of each format turns a file's bytes, and the file's name, into a `Container`, or
reports why the bytes are not a container of that format.
-/

namespace ContainerProbe

/-- Reads a file of the given format as a container. -/
def Container.ofBytes (kind : ContainerKind) (data : ByteArray) (name : Option String) :
    Except Fault Container :=
  match kind with
  | .ole2 => (Compound.Document.load data).map (·.toContainer name)
  | .zip => Zip.container data name
  | .gzip => Gzip.container data name

end ContainerProbe
