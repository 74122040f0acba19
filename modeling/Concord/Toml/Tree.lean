import Concord.Toml.Value

/-! Tables remember how they came about, because that decides what may be added to them. -/
namespace Concord.Toml

inductive TableOrigin
  | defined
  | implied
  | dotted
  deriving DecidableEq, Repr

inductive Item
  | value (v : Value)
  | table (origin : TableOrigin) (entries : List (String × Item))
  | tables (all : List (List (String × Item)))
  deriving Repr, Inhabited

abbrev Entries := List (String × Item)

def Entries.set (key : String) (item : Item) : Entries → Entries
  | [] => [(key, item)]
  | e :: rest => if e.1 == key then (key, item) :: rest else e :: set key item rest

/-- Changes the table at a path. Tables that are not there are made. None if a value is in the way,
or if a dotted key enters a table that is already defined. -/
def Entries.modify (dotted : Bool) (change : TableOrigin → Entries → Option Entries) :
    (path : List String) → TableOrigin → Entries → Option Entries
  | [], origin, entries => change origin entries
  | key :: path, _, entries =>
    match entries.lookup key with
    | none =>
      let origin : TableOrigin := if dotted then .dotted else .implied
      (modify dotted change path origin []).map fun inner =>
        entries ++ [(key, .table origin inner)]
    | some (.value _) => none
    | some (.tables all) =>
      match all.getLast? with
      | none => none
      | some last => (modify dotted change path .defined last).map fun inner =>
          set key (.tables (all.dropLast ++ [inner])) entries
    | some (.table origin inner) =>
      if dotted && origin = .defined then none
      else (modify dotted change path origin inner).map fun inner =>
        set key (.table origin inner) entries

/-- Adds a value under a dotted key. None if the key is there, or if the table it belongs to came
about in another way. -/
def Entries.addValue (path : List String) (key : String) (v : Value) (entries : Entries) :
    Option Entries :=
  modify true (fun origin inner =>
    if (origin = .dotted) = path.isEmpty || (inner.lookup key).isSome then none
    else some (inner ++ [(key, .value v)])) path .defined entries

mutual

def Item.toValue : Item → Value
  | .value v => v
  | .table _ entries => .table (entriesToValues entries)
  | .tables all => .array (tablesToValues all)

def entriesToValues : List (String × Item) → List (String × Value)
  | [] => []
  | (key, item) :: rest => (key, item.toValue) :: entriesToValues rest

def tablesToValues : List (List (String × Item)) → List Value
  | [] => []
  | entries :: rest => .table (entriesToValues entries) :: tablesToValues rest

end

end Concord.Toml
