import TableImport.Proofs.Document.Keys
import TableImport.Proofs.Row.Tables

/-! Tables in parts: each row is mapped by itself, and of the rows before it, in the same table or
an earlier one, only the identifiers that they have taken are seen. -/
namespace TableImport

namespace Document

/-- The document less one field. -/
def without (key : String) (d : Document) : Document := ⟨d.fields.filter fun f => f.1 != key⟩

end Document

namespace Output

/-- The output with its rejected rows so many rows further down. -/
def shift (o : Output) (n : Nat) : Output :=
  { o with rejected := o.rejected.map fun r => { r with index := r.index + n } }

end Output

namespace Engine
variable (e : Engine)

end Engine
end TableImport
