import FlashParams.Log.Basic
import FlashParams.Pattern.Reader

/-!
# The log filter

Which entries of the log are shown is decided at the very end by a filter, so the computation does
not depend on it.

A filter is written as directives separated by commas, optionally followed by a slash and a pattern
that has to occur in every message that is shown. A directive is a level, a target, or
`target=level`; a target on its own admits every level, and a word that is no level is a target. An
entry has as its target the name of the part of the program it comes from, and a directive applies
when its target is an initial part of that name. Among the directives that apply the longest target
decides, and a directive replaces an earlier one for the same target. What cannot be read is
ignored, be it a directive or the pattern, and a filter without any directive admits errors only.
-/

set_option autoImplicit false

namespace FlashParams.Log

/-- One directive of a filter: how many levels it admits for entries whose target starts with a text. One
without a target is for all entries. -/
structure Directive where
  target : Option (List Char)
  limit : Nat
  deriving DecidableEq, Repr

structure Filter where
  directives : List Directive
  /-- What has to occur in a message. -/
  pattern : Option Pattern := none
  deriving DecidableEq, Repr

def limit? (word : List Char) : Option Nat :=
  match String.ofList (Text.foldCase word) with
  | "off" => some 0
  | "error" => some 1
  | "warn" => some 2
  | "info" => some 3
  | "debug" => some 4
  | "trace" => some 5
  | _ => none

def Directive.read? (s : List Char) : Option Directive :=
  match Text.splitWhere (· == '=') s with
  | [word] =>
    match limit? word with
    | some limit => some ⟨none, limit⟩
    | none => some ⟨some word, 5⟩
  | [target, word] =>
    match Text.trim word with
    | [] => some ⟨some target, 5⟩
    | word => (limit? word).map fun limit => ⟨some target, limit⟩
  | _ => none

def addDirective (directives : List Directive) (d : Directive) : List Directive :=
  if directives.any (·.target = d.target) then
    directives.map fun e => if e.target = d.target then d else e
  else directives ++ [d]

def Filter.read (s : List Char) : Filter :=
  let errorsOnly : List Directive := [⟨none, 1⟩]
  let ofSpec (spec : List Char) : List Directive :=
    let read := (Text.splitWhere (· == ',') spec).map Text.trim
      |>.filter (fun word => !word.isEmpty)
      |>.filterMap Directive.read?
    if read.isEmpty then errorsOnly else read.foldl addDirective []
  match Text.splitWhere (· == '/') s with
  | [spec] => ⟨ofSpec spec, none⟩
  | [spec, text] => ⟨ofSpec spec, Pattern.read? text⟩
  | _ => ⟨errorsOnly, none⟩

/-- How many levels a filter admits for a target: those of its longest directive that applies. Without
any that applies it admits none. -/
def Filter.limitFor (f : Filter) (target : List Char) : Nat :=
  let applicable := f.directives.filter fun d => d.target.all (·.isPrefixOf target)
  let longest := applicable.foldl
    (fun best d =>
      let length := (d.target.getD []).length
      match best with
      | some (l, _) => if l ≤ length then some (length, d.limit) else best
      | none => some (length, d.limit))
    (none : Option (Nat × Nat))
  (longest.map (·.2)).getD 0

def Filter.shows (f : Filter) (e : Entry) : Bool :=
  e.level.rank ≤ f.limitFor e.source.target.toList && f.pattern.all (·.occursIn e.message.toList)

end FlashParams.Log
