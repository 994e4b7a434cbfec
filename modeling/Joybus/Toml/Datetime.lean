import Joybus.Toml.Decimal

/-!
Dates and times of TOML, read as far as they go. A year with a dash must go on as a date, an hour
with a colon as a time of day, and the sign of an offset as an offset.
-/

namespace Joybus.Toml

structure Date where
  year : Nat
  month : Nat
  day : Nat
deriving DecidableEq, Repr

structure Time where
  hour : Nat
  minute : Nat
  second : Nat
  nanosecond : Nat
deriving DecidableEq, Repr

/-- The distance from universal time. -/
inductive Offset where
  | zero
  | minutes (m : Int)
deriving DecidableEq, Repr

inductive Datetime where
  | date (d : Date)
  | time (t : Time)
  | both (d : Date) (t : Time) (offset : Option Offset)
deriving DecidableEq, Repr

/-- Two digits, as a number. -/
def two? (a b : Char) : Option Nat :=
  if a.isDigit && b.isDigit then some (inBase 10 [a, b]) else none

def isLeap (year : Nat) : Bool := year % 4 = 0 && (year % 100 ≠ 0 || year % 400 = 0)

/-- The number of days of a month, none for a month that does not exist. -/
def monthLength (year month : Nat) : Nat :=
  if month = 2 then if isLeap year then 29 else 28
  else if month ∈ [4, 6, 9, 11] then 30
  else if 1 ≤ month ∧ month ≤ 12 then 31
  else 0

/-- Whether the text starts with a year and a dash. -/
def startsDate : List Char → Bool
  | a :: b :: c :: d :: '-' :: _ => [a, b, c, d].all Char.isDigit
  | _ => false

/-- Whether the text starts with an hour and a colon. -/
def startsTime : List Char → Bool
  | a :: b :: ':' :: _ => (two? a b).any (· ≤ 23)
  | _ => false

/-- Reads a date from the front. -/
def date? : List Char → Option (Date × List Char)
  | a :: b :: c :: d :: '-' :: e :: f :: '-' :: g :: h :: rest => do
    let year := 100 * (← two? a b) + (← two? c d)
    let month ← two? e f
    let day ← two? g h
    if 1 ≤ day ∧ day ≤ monthLength year month then return (⟨year, month, day⟩, rest) else none
  | _ => none

/-- The nanoseconds that the digits of a fraction of a second tell, without what is finer. -/
def nanoseconds (digits : List Char) : Nat :=
  let ds := digits.take 9
  inBase 10 (ds ++ List.replicate (9 - ds.length) '0')

/-- Reads a fraction of a second from the front, if there is one. -/
def nanosecond : List Char → Nat × List Char
  | '.' :: rest =>
    match rest.takeWhile Char.isDigit with
    | [] => (0, '.' :: rest)
    | ds => (nanoseconds ds, rest.dropWhile Char.isDigit)
  | rest => (0, rest)

/-- Reads a time of day from the front. -/
def time? : List Char → Option (Time × List Char)
  | a :: b :: ':' :: c :: d :: ':' :: e :: f :: rest => do
    let hour ← two? a b
    let minute ← two? c d
    let second ← two? e f
    let (fraction, rest) := nanosecond rest
    if hour ≤ 23 ∧ minute ≤ 59 ∧ second ≤ 60 then return (⟨hour, minute, second, fraction⟩, rest)
    else none
  | _ => none

/-- Reads the hours and minutes of an offset from the front, as minutes. -/
def shift? : List Char → Option (Nat × List Char)
  | a :: b :: ':' :: c :: d :: rest => do
    let hours ← two? a b
    let minutes ← two? c d
    if hours ≤ 23 ∧ minutes ≤ 59 then return (60 * hours + minutes, rest) else none
  | _ => none

/-- Reads an offset from the front, if there is one. -/
def offset? : List Char → Option (Option Offset × List Char)
  | 'Z' :: rest | 'z' :: rest => some (some .zero, rest)
  | '+' :: rest => (shift? rest).map fun (m, rest) => (some (.minutes m), rest)
  | '-' :: rest => (shift? rest).map fun (m, rest) => (some (.minutes (-m)), rest)
  | rest => some (none, rest)

/-- Reads what may follow a date: a mark, a time of day and an offset, if they are there. -/
def Date.withTime? (d : Date) : List Char → Option (Datetime × List Char)
  | [] => some (.date d, [])
  | mark :: rest =>
    if (mark = 'T' || mark = 't' || mark = ' ') && startsTime rest then do
      let (t, rest) ← time? rest
      let (offset, rest) ← offset? rest
      return (.both d t offset, rest)
    else some (.date d, mark :: rest)

/-- Reads a date, a time, or both with or without an offset from the front. -/
def datetime? (cs : List Char) : Option (Datetime × List Char) :=
  if startsDate cs then do
    let (d, rest) ← date? cs
    d.withTime? rest
  else (time? cs).map fun (t, rest) => (.time t, rest)

def Date.spell (d : Date) : List Char :=
  padded 4 d.year ++ '-' :: padded 2 d.month ++ '-' :: padded 2 d.day

/-- A time of day with as many places behind the second as it needs. -/
def Time.spell (t : Time) : List Char :=
  let whole := padded 2 t.hour ++ ':' :: padded 2 t.minute ++ ':' :: padded 2 t.second
  if t.nanosecond = 0 then whole
  else whole ++ '.' :: ((padded 9 t.nanosecond).reverse.dropWhile (· = '0')).reverse

def Offset.spell : Offset → List Char
  | zero => ['Z']
  | minutes m =>
    (if m < 0 then '-' else '+') :: padded 2 (m.natAbs / 60) ++ ':' :: padded 2 (m.natAbs % 60)

namespace Datetime

/-- A date or time as it is written. -/
def spell : Datetime → String
  | date d => .ofList d.spell
  | time t => .ofList t.spell
  | both d t offset => .ofList (d.spell ++ 'T' :: t.spell ++ (offset.map Offset.spell).getD [])

/-- Reads a text that is a date, a time, or both. -/
def ofText? (text : String) : Option Datetime :=
  match datetime? text.toList with
  | some (d, []) => some d
  | _ => none

end Datetime

end Joybus.Toml
