import KeyedBlocks.Toml.Value

/-!
Records made from TOML values. A record is written as a table, whose unknown fields are passed
over, or as an array of its fields in their order, where those at the end may be left out and what
is too much is passed over. A moment counts as a table with a field that no record knows.
-/
namespace KeyedBlocks.Toml

abbrev Decoder (α : Type) := Value → Option α

def natBelow (bound : Nat) : Decoder Nat
  | .integer n => if 0 ≤ n ∧ n < bound then some n.toNat else none
  | _ => none

def string : Decoder String
  | .text s => some s
  | _ => none

/-- A name, which may also be the one field of a table, with nothing in it. -/
def name : Decoder String
  | .text s => some s
  | .table [(s, .table [])] => some s
  | .table [(s, .array [])] => some s
  | _ => none

/-- A field of a record: its name, and how its value changes the record. -/
structure FieldDecoder (σ : Type) where
  name : String
  set : Value → σ → Option σ

def fieldDecoder {α σ : Type} (name : String) (decode : Decoder α) (set : α → σ → σ) :
    FieldDecoder σ :=
  ⟨name, fun v r => (decode v).map fun a => set a r⟩

def record {σ : Type} (fields : List (FieldDecoder σ)) (default : σ) : Decoder σ
  | .table entries =>
      entries.foldlM
        (fun r entry =>
          match fields.find? (·.name = entry.1) with
          | some field => field.set entry.2 r
          | none => some r)
        default
  | .array items => (fields.zip items).foldlM (fun r entry => entry.1.set entry.2 r) default
  | .moment => some default
  | _ => none

end KeyedBlocks.Toml
