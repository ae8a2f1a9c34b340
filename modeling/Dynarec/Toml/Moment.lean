import Dynarec.Toml.Scalar

/-!
# Dates and times

A date, a time of day, or both, the latter with or without a zone. Where such a value ends and of which
kind it is can be told from its marks alone. `Moment.isReal` tells whether it names a day and a time that
exist.
-/

namespace Dynarec.Toml

inductive MomentKind where
  | date
  | time
  | dateTime
  | zoned
deriving DecidableEq

structure Moment where
  kind : MomentKind
  spelled : List Char

namespace Moment

structure Marks where
  hasDate : Bool := false
  hasTime : Bool := false
  hasZone : Bool := false

def Marks.kind (m : Marks) : MomentKind :=
  if !m.hasTime then .date
  else if !m.hasDate then .time
  else if m.hasZone then .zoned
  else .dateTime

/-- What a character inside a date or time marks, if it can stand there at the position `i`. A dash
behind the month belongs to a zone. -/
def Marks.add? (m : Marks) (i : Nat) (c : Char) : Option Marks :=
  if isDigit c then some m
  else if c == '-' then some { m with hasDate := true, hasZone := m.hasZone || 8 ≤ i }
  else if c == 'T' || c == 't' || c == ':' || c == '.' then some { m with hasTime := true }
  else if c == '+' || c == 'Z' || c == 'z' then some { m with hasZone := true }
  else none

/-- The marks from position `i` on and the position behind the last. One blank may stand in front of a
digit; the character behind that digit is not looked at, but it is never part of a longer code. -/
def scan (m : Marks) (seenBlank : Bool) (i : Nat) : List Char → Option (Marks × Nat)
  | [] => some (m, i)
  | c :: cs =>
      match m.add? i c with
      | some m => scan m seenBlank (i + 1) cs
      | none =>
          if c != ' ' || seenBlank then some (m, i)
          else
            match cs with
            | [] => some (m, i)
            | [d] => if isDigit d then some ({ m with hasTime := true }, i + 2) else some (m, i)
            | d :: x :: rest =>
                if !isDigit d then some (m, i)
                else if 0x80 ≤ x.toNat then none
                else scan { m with hasTime := true } true (i + 3) rest

/-- Whether a value starts like a date or a time: four digits and a dash, or two and a colon. -/
def starts (cs : List Char) : Bool :=
  let digits := cs.takeWhile isDigit
  (digits.length == 4 && startsWith ['-'] (cs.drop 4)) ||
    (digits.length == 2 && startsWith [':'] (cs.drop 2))

def read : Reader Moment := fun cs => do
  let (m, n) ← scan {} false 0 cs
  return (⟨m.kind, cs.take n⟩, cs.drop n)

/-- The number that digits spell, at most `limit`. -/
def digitsUpTo (limit : Nat) (cs : List Char) : Option Nat :=
  let n := cs.foldl (fun n c => 10 * n + (c.toNat - '0'.toNat)) 0
  if cs.all isDigit && n ≤ limit then some n else none

def isLeapYear (y : Nat) : Bool :=
  y % 4 == 0 && (y % 100 != 0 || y % 400 == 0)

def daysIn (year month : Nat) : Nat :=
  if month == 2 then (if isLeapYear year then 29 else 28)
  else if month == 4 || month == 6 || month == 9 || month == 11 then 30
  else 31

def isDate : List Char → Bool
  | [y1, y2, y3, y4, '-', m1, m2, '-', d1, d2] =>
      match digitsUpTo 9999 [y1, y2, y3, y4], digitsUpTo 12 [m1, m2], digitsUpTo 31 [d1, d2] with
      | some y, some m, some d => 1 ≤ m && 1 ≤ d && d ≤ daysIn y m
      | _, _, _ => false
  | _ => false

/-- What stands behind a time of day. The last second of a day may be a leap second. -/
def time : Reader Unit
  | h1 :: h2 :: ':' :: m1 :: m2 :: ':' :: s1 :: s2 :: rest => do
      let _ ← digitsUpTo 23 [h1, h2]
      let _ ← digitsUpTo 59 [m1, m2]
      let _ ← digitsUpTo 60 [s1, s2]
      match rest with
      | '.' :: rest =>
          if (rest.takeWhile isDigit).isEmpty then none else some ((), rest.dropWhile isDigit)
      | rest => some ((), rest)
  | _ => none

def isZone : List Char → Bool
  | [c] => c == 'Z' || c == 'z'
  | [sign, h1, h2, ':', m1, m2] =>
      (sign == '+' || sign == '-') && (digitsUpTo 23 [h1, h2]).isSome && (digitsUpTo 59 [m1, m2]).isSome
  | _ => false

def dateTime : Reader Unit := fun cs =>
  match cs.drop 10 with
  | c :: rest => if isDate (cs.take 10) && (c == 'T' || c == 't' || c == ' ') then time rest else none
  | [] => none

def isReal (m : Moment) : Bool :=
  match m.kind with
  | .date => isDate m.spelled
  | .time => (time m.spelled).any fun (_, rest) => rest.isEmpty
  | .dateTime => (dateTime m.spelled).any fun (_, rest) => rest.isEmpty
  | .zoned => (dateTime m.spelled).any fun (_, rest) => isZone rest

end Moment

end Dynarec.Toml
