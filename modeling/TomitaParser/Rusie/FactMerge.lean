import Mathlib.Data.List.Dedup
import Mathlib.Data.String.Basic
import TomitaParser.Rusie.FactFields
/-! # Merging facts

Two lists of facts are merged type by type. Facts of one type with no common field are merged in
place; facts with a common field stay apart, unless the field is concatenated. -/

namespace TomitaParser.Rusie

variable {Date Fio : Type}

/-- Whether two values can stand in one field. -/
def concatenable (x y : FieldValue Date Fio) : Bool :=
  match x.concatenation, y.concatenation with
  | some first, some second => first || second
  | _, _ => false

/-- Whether a field of two facts has values that cannot be concatenated. -/
def clashAt (field : FactFieldDescr) (fact₁ fact₂ : FactFields Date Fio) : Bool :=
  match fact₁.value field.strFieldName, fact₂.value field.strFieldName with
  | some x, some y => !concatenable x y
  | _, _ => false

/-- Whether two facts have such a field. -/
def factsClash (type : FactType) (fact₁ fact₂ : FactFields Date Fio) : Bool :=
  type.fields.any fun field => clashAt field fact₁ fact₂

/-- One fact is merged into each of several ones. -/
def mergeOneToMany (norm : Inflector) (type : FactType) :
    FactFields Date Fio → List (FactFields Date Fio) → List (FactFields Date Fio)
  | _, [] => []
  | one, fact :: many =>
    let merged := mergeTwoFacts norm type fact one
    merged.1 :: mergeOneToMany norm type merged.2 many

/-- `MergeEqualNameFacts`: the first list after it, if it succeeds. -/
def mergeEqualNameFacts (norm : Inflector) (type : FactType)
    (facts₁ facts₂ : List (FactFields Date Fio)) : Option (List (FactFields Date Fio)) :=
  match facts₁, facts₂ with
  | [one], many@(_ :: _ :: _) => some (mergeOneToMany norm type one many)
  | many@(_ :: _ :: _), [one] => some (mergeOneToMany norm type one many)
  | facts₁, facts₂ =>
    if facts₁.length = facts₂.length then
      some (List.zipWith (fun fact₁ fact₂ => (mergeTwoFacts norm type fact₁ fact₂).1) facts₁ facts₂)
    else none

/-- `IsFactIntersection`: the two lists after it, if there is an intersection. -/
def isFactIntersection (norm : Inflector) (type : FactType)
    (facts₁ facts₂ : List (FactFields Date Fio)) :
    Option (List (FactFields Date Fio) × List (FactFields Date Fio)) :=
  let free₁ fact₁ := facts₂.any fun fact₂ => !factsClash type fact₁ fact₂
  let free₂ fact₂ := facts₁.any fun fact₁ => !factsClash type fact₁ fact₂
  if !facts₁.any fun fact₁ => facts₂.any fun fact₂ => factsClash type fact₁ fact₂ then none
  else if facts₁.filter free₁ = [] then some (facts₁, facts₂)
  else
    match mergeEqualNameFacts norm type (facts₁.filter free₁) (facts₂.filter free₂) with
    | none => some (facts₁, facts₂)
    | some merged =>
      some (facts₁.filter (fun fact => !free₁ fact) ++ merged ++
        facts₂.filter (fun fact => !free₂ fact), [])

/-- The facts of a name, as `DivideFactsSetIntoSubsets` gives them. -/
def factSubset (facts : List (FactFields Date Fio)) (name : String) :
    List (FactFields Date Fio) :=
  facts.filter fun fact => fact.strFactName = name

/-- The names of the facts, in the order of the map. -/
def factNames (facts : List (FactFields Date Fio)) : List String :=
  (facts.map (·.strFactName)).dedup.mergeSort

/-- The facts of one name in `MergeFactGroups`, if they can be merged. -/
def mergeSubsets (norm : Inflector) (type : FactType) (facts₁ facts₂ : List (FactFields Date Fio)) :
    Option (List (FactFields Date Fio)) :=
  if facts₂ = [] then some facts₁
  else if facts₁ = [] then some facts₂
  else
    match isFactIntersection norm type facts₁ facts₂ with
    | some lists => some (lists.1 ++ lists.2)
    | none => mergeEqualNameFacts norm type facts₁ facts₂

/-- `MergeFactGroups`: the result and the first list after it. -/
def mergeFactGroups (norm : Inflector) (types : String → FactType)
    (facts₁ facts₂ : List (FactFields Date Fio)) : Bool × List (FactFields Date Fio) :=
  if facts₂ = [] then (true, facts₁)
  else if facts₁ = [] then (true, facts₂)
  else
    let merged := (factNames (facts₁ ++ facts₂)).mapM fun name =>
      mergeSubsets norm (types name) (factSubset facts₁ name) (factSubset facts₂ name)
    match merged with
    | some lists => (true, lists.flatten)
    | none => (false, facts₁)

end TomitaParser.Rusie
