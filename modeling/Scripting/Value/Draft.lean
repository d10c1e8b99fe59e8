import Scripting.Dict
import Scripting.Store

/-
Values as a host describes them. A description becomes a value when it is built: shared parts get
cells of their own, and values that the host kept under a name are put in.
-/
namespace Scripting

inductive Draft where
  /-- A value without parts. -/
  | plain (v : Value)
  | array (items : List Draft)
  | map (entries : List (Text × Draft))
  | fn (name : Text) (curry : List Draft)
  /-- A value in a cell. -/
  | shared (content : Draft)
  /-- What was kept under a name; an alias stays an alias of the same cell. -/
  | kept (name : Text)

instance : Inhabited Draft := ⟨.plain .unit⟩

namespace Draft

variable (kept : Dict Text Value)

mutual

def build (s : Store) : Draft → Store × Value
  | plain v => (s, v)
  | array items =>
    let (s, items) := buildAll s items
    (s, .array items)
  | map entries =>
    let (s, entries) := buildEntries s entries
    (s, .map (Dict.ofList entries))
  | fn name curry =>
    let (s, curry) := buildAll s curry
    (s, .fn name curry)
  | shared content =>
    let (s, v) := build s content
    s.share v
  | .kept name => (s, (kept.find? name).getD .unit)

def buildAll (s : Store) : List Draft → Store × List Value
  | [] => (s, [])
  | d :: rest =>
    let (s, v) := build s d
    let (s, vs) := buildAll s rest
    (s, v :: vs)

def buildEntries (s : Store) : List (Text × Draft) → Store × List (Text × Value)
  | [] => (s, [])
  | (key, d) :: rest =>
    let (s, v) := build s d
    let (s, vs) := buildEntries s rest
    (s, (key, v) :: vs)

end

end Draft

end Scripting
