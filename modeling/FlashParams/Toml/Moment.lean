import FlashParams.Toml.Atom

/-!
# Dates written as tables

A document can give a date in two ways: as such, or as a table whose *first* key is `dateTimeKey`
and whose member under that key is a string that spells the date. The spelling is a little freer
than that of a date in a document: a day may have an hour 24, and an offset is any number of hours
and minutes up to a whole day.

`Value.withDates?` replaces the tables by the dates they mark, at all levels. A table that marks a
date but spells none is refused. Whether members after the first are passed over or refused is left
to the caller, because it depends on what the value is read for.
-/

set_option autoImplicit false

namespace FlashParams.Toml

def offsetText (negative : Bool) (minutes : Nat) : List Char :=
  let sign := if negative ∧ minutes ≠ 0 then '-' else '+'
  let two (n : Nat) := Numeral.padStart 2 '0' (Numeral.write 10 n)
  sign :: two (minutes / 60) ++ ':' :: two (minutes % 60)

def spelledOffset? : List Char → Option (List Char)
  | [] => some []
  | ['Z'] | ['z'] => some ['Z']
  | sign :: after =>
    if sign = '+' ∨ sign = '-' then do
      let (hours, rest) ← fixedDigits? 2 0 99 after
      let rest ← expect? ':' rest
      let (minutes, rest) ← fixedDigits? 2 0 99 rest
      let total := (← Numeral.read? 10 hours) * 60 + (← Numeral.read? 10 minutes)
      if rest.isEmpty ∧ total ≤ 24 * 60 then some (offsetText (sign = '-') total) else none
    else none

def spelledTime? (s : List Char) : Option (List Char × List Char) :=
  time? 24 s

def spelledDateTime? (s : List Char) : Option (List Char) :=
  if s[2]? = some ':' then do
    let (time, rest) ← spelledTime? s
    if rest.isEmpty then some time else none
  else do
    let (date, rest) ← date? s
    match rest with
    | [] => some date
    | c :: after =>
      if c = 'T' ∨ c = 't' ∨ c = ' ' then
        let (time, rest) ← spelledTime? after
        let offset ← spelledOffset? rest
        some (date ++ 'T' :: time ++ offset)
      else none

def Value.spelledDate? : Value → Option Value
  | .string s => (spelledDateTime? s.toList).map fun text => .dateTime (String.ofList text)
  | _ => none

mutual

/-- A value with dates in place of the tables that mark them. `strict` refuses a table that marks a
date and has more than the one member. -/
def Value.withDates? (strict : Bool) : Value → Option Value
  | .array items => (itemsWithDates? strict items).map .array
  | .table ((key, value) :: rest) =>
    if key = dateTimeKey then
      if strict ∧ !rest.isEmpty then none else value.spelledDate?
    else do
      let value ← value.withDates? strict
      let rest ← membersWithDates? strict rest
      return .table ((key, value) :: rest)
  | value => some value

def itemsWithDates? (strict : Bool) : List Value → Option (List Value)
  | [] => some []
  | item :: rest => do
    let item ← item.withDates? strict
    let rest ← itemsWithDates? strict rest
    return item :: rest

def membersWithDates? (strict : Bool) : List (String × Value) → Option (List (String × Value))
  | [] => some []
  | (key, value) :: rest => do
    let value ← value.withDates? strict
    let rest ← membersWithDates? strict rest
    return (key, value) :: rest

end

end FlashParams.Toml
