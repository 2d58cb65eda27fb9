import KeyedBlocks.Toml.Value

/-!
Tables while a document is being read. A table remembers how it came to be, because that decides
what may still be added to it: a table named by a header or written inline is defined once, a
table that a longer header implies may still get its own header, and a table made by dotted keys is
open to more dotted keys only.
-/
namespace KeyedBlocks.Toml

inductive Origin
  /-- Named by a header of its own. -/
  | header
  /-- Implied by the header of a table inside it. -/
  | implied
  /-- Made by a dotted key. -/
  | dotted
  deriving DecidableEq

inductive Tree
  | value (v : Value)
  | table (origin : Origin) (fields : List (String × Tree))
  /-- Tables under one name, the newest first. -/
  | tables (items : List Tree)

namespace Tree

def empty : Tree := .table .header []

def field? (name : String) : List (String × Tree) → Option Tree
  | [] => none
  | (other, tree) :: rest => if other = name then some tree else field? name rest

def setField (name : String) (tree : Tree) (fields : List (String × Tree)) :
    List (String × Tree) :=
  fields.filter (·.1 ≠ name) ++ [(name, tree)]

/-- Change what lies at a path, making tables of the origin `made` on the way. A dotted key may not
enter a table that has a header. -/
def descend (made : Origin) (change : Tree → Option Tree) : List String → Tree → Option Tree
  | [], tree => change tree
  | name :: path, .table origin fields => do
      let child ←
        match field? name fields with
        | none => descend made change path (.table made [])
        | some (.tables (newest :: older)) =>
            (descend made change path newest).map fun tree => .tables (tree :: older)
        | some (.table origin inner) =>
            if made = .dotted ∧ origin = .header then none
            else descend made change path (.table origin inner)
        | some _ => none
      return .table origin (setField name child fields)
  | _ :: _, _ => none

/-- Give a field of this table its value; no field is given twice. -/
def assign (path : List String) (name : String) (v : Value) : Tree → Option Tree :=
  descend .dotted
    (fun tree =>
      match tree with
      | .table origin fields =>
          if (path.isEmpty || origin = .dotted) && (field? name fields).isNone then
            some (.table origin (setField name (.value v) fields))
          else none
      | _ => none)
    path

def splitLast : List String → Option (List String × String)
  | [] => none
  | [name] => some ([], name)
  | name :: rest => (splitLast rest).map fun split => (name :: split.1, split.2)

def changeField (change : Option Tree → Option Tree) (path : List String) (name : String) :
    Tree → Option Tree :=
  descend .implied
    (fun tree =>
      match tree with
      | .table origin fields =>
          (change (field? name fields)).map fun child =>
            .table origin (setField name child fields)
      | _ => none)
    path

def openTable (path : List String) (name : String) : Tree → Option Tree :=
  changeField
    (fun
      | none => some (.table .header [])
      | some (.table .implied fields) => some (.table .header fields)
      | some _ => none)
    path name

def addTable (path : List String) (name : String) : Tree → Option Tree :=
  changeField
    (fun
      | none => some (.tables [empty])
      | some (.tables items) => some (.tables (empty :: items))
      | some _ => none)
    path name

mutual

def toValue : Tree → Value
  | .value v => v
  | .table _ fields => .table (toFields fields)
  | .tables items => .array (toValues items).reverse

def toFields : List (String × Tree) → List (String × Value)
  | [] => []
  | (name, tree) :: rest => (name, toValue tree) :: toFields rest

def toValues : List Tree → List Value
  | [] => []
  | tree :: rest => toValue tree :: toValues rest

end

end Tree

end KeyedBlocks.Toml
