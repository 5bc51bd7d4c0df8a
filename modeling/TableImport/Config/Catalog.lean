import TableImport.Config.Codec

/-! Catalogs of mappings, looked up by platform and name. -/
namespace TableImport

/-- Mappings in the order in which they were added. -/
structure Catalog where
  mappings : List Mapping

def Mapping.HasKey (platform name : String) (m : Mapping) : Prop :=
  m.platform = platform ∧ m.name = name

instance (platform name : String) (m : Mapping) : Decidable (m.HasKey platform name) := by
  unfold Mapping.HasKey; infer_instance

/-- Puts a mapping in the place of the first one with its key, or at the end. -/
def Mapping.put (m : Mapping) : List Mapping → List Mapping
  | [] => [m]
  | n :: rest => if n.HasKey m.platform m.name then m :: rest else n :: put m rest

namespace Catalog

def empty : Catalog := ⟨[]⟩

def insert (c : Catalog) (m : Mapping) : Catalog := ⟨m.put c.mappings⟩

def get? (c : Catalog) (platform name : String) : Option Mapping :=
  c.mappings.find? fun m => decide (m.HasKey platform name)

def size (c : Catalog) : Nat := c.mappings.length

def keys (c : Catalog) : List (String × String) := c.mappings.map fun m => (m.platform, m.name)

def toJson (c : Catalog) : Json := .object [("configs", .array (c.mappings.map Mapping.toJson))]

/-- A catalog: an object with the list of mappings, or the bare list. -/
def decode (v : Json) : Except DecodeError Catalog :=
  match v with
  | .array _ => (Decoder.list Mapping.decode v).map Catalog.mk
  | _ =>
    Decoder.record [("configs", Decoder.check (Decoder.list Mapping.decode))]
      (fun given => (Decoder.withDefault [] (Decoder.list Mapping.decode) (given "configs")).map
        Catalog.mk) v

end Catalog
end TableImport
