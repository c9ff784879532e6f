import CallRelay.Text.Hex
import CallRelay.Text.Numeral

/-! # Socket addresses

An address is a host and a port. IPv4 hosts are four decimal numbers; IPv6 hosts are eight groups in
brackets, the longest run of at least two zero groups left out, IPv4-mapped ones with their IPv4 part. -/

namespace CallRelay

/-- The host part of an address. -/
inductive Host
  | v4 (a b c d : UInt8)
  /-- Eight 16-bit groups and the scope, zero for none. -/
  | v6 (groups : List Nat) (scope : Nat)
  deriving DecidableEq, Repr

/-- A host and a port. -/
structure Address where
  host : Host
  port : Nat
  deriving DecidableEq, Repr

namespace Host

/-! ### Writing -/

/-- The hexadecimal text of a group, without zeros in front. -/
def groupText (n : Nat) : String := String.ofList (Nat.toDigits 16 n)

def v4Text (a b c d : UInt8) : String :=
  ".".intercalate [toString a.toNat, toString b.toNat, toString c.toNat, toString d.toNat]

/-- The length of the run of zero groups at the front. -/
def zeroRun (gs : List Nat) : Nat := (gs.takeWhile (· == 0)).length

/-- The first longest run of zero groups: where it starts and how long it is. -/
def longestZeroRun (gs : List Nat) : Nat × Nat :=
  (List.range gs.length).foldl
    (fun best i => if best.2 < zeroRun (gs.drop i) then (i, zeroRun (gs.drop i)) else best) (0, 0)

def groupsText (gs : List Nat) : String := ":".intercalate (gs.map groupText)

/-- The text of eight groups. -/
def v6Text (gs : List Nat) : String :=
  match gs with
  | [0, 0, 0, 0, 0, 0xffff, x, y] =>
    "::ffff:" ++ v4Text (UInt8.ofNat (x / 256)) (UInt8.ofNat x) (UInt8.ofNat (y / 256)) (UInt8.ofNat y)
  | _ =>
    let run := longestZeroRun gs
    if 1 < run.2 then groupsText (gs.take run.1) ++ "::" ++ groupsText (gs.drop (run.1 + run.2)) else groupsText gs

/-! ### Reading -/

/-- The digits at the front: one to `most` of them, in the given base. -/
def number? (value? : Char → Option Nat) (base most : Nat) (zeros : Bool) (bound : Nat) (cs : List Char) :
    Option (Nat × List Char) :=
  let ds := cs.takeWhile fun c => (value? c).isSome
  let n := ds.foldl (fun n c => n * base + (value? c).getD 0) 0
  if ds = [] || most < ds.length || bound ≤ n || (!zeros && 1 < ds.length && ds.head? == some '0') then none
  else some (n, cs.drop ds.length)

/-- An octet at the front, without zeros before its digits. -/
def octet? (cs : List Char) : Option (UInt8 × List Char) :=
  (number? Numeral.digit? 10 3 false 256 cs).map fun r => (UInt8.ofNat r.1, r.2)

/-- The characters behind `c`, if it stands at the front. -/
def after? (c : Char) : List Char → Option (List Char)
  | [] => none
  | x :: rest => if x = c then some rest else none

/-- Four octets with points between them. -/
def v4? (cs : List Char) : Option ((UInt8 × UInt8 × UInt8 × UInt8) × List Char) := do
  let (a, cs) ← octet? cs
  let (b, cs) ← octet? (← after? '.' cs)
  let (c, cs) ← octet? (← after? '.' cs)
  let (d, cs) ← octet? (← after? '.' cs)
  some ((a, b, c, d), cs)

/-- The characters behind the colon that separates the group at position `i` from the one before. -/
def separated? (i : Nat) (cs : List Char) : Option (List Char) := if i = 0 then some cs else after? ':' cs

/-- Up to `room` further groups behind `i` groups; two of them may be written as an IPv4 host, which ends
    the list. Tells the groups, whether an IPv4 host ended them, and the rest. -/
def groups : Nat → Nat → List Char → List Nat × Bool × List Char
  | 0, _, cs => ([], false, cs)
  | room + 1, i, cs =>
    match (if 1 ≤ room then (separated? i cs).bind v4? else none) with
    | some ((a, b, c, d), rest) => ([wordValue a b, wordValue c d], true, rest)
    | none =>
      match (separated? i cs).bind (number? Hex.value? 16 4 true 65536) with
      | none => ([], false, cs)
      | some (g, rest) =>
        let (gs, mapped, rest) := groups room (i + 1) rest
        (g :: gs, mapped, rest)

/-- Eight groups, or fewer with `::` in place of at least one. -/
def v6? (cs : List Char) : Option (List Nat × List Char) :=
  let (front, mapped, rest) := groups 8 0 cs
  if front.length = 8 then some (front, rest)
  else if mapped then none
  else do
    let rest ← after? ':' (← after? ':' rest)
    let (back, _, rest) := groups (7 - front.length) 0 rest
    some (front ++ List.replicate (8 - front.length - back.length) 0 ++ back, rest)

/-- Reads a host without brackets: four octets, or the groups of an IPv6 host. -/
def ofText? (s : String) : Option Host :=
  match v4? s.toList with
  | some ((a, b, c, d), []) => some (v4 a b c d)
  | _ => match v6? s.toList with
    | some (gs, []) => some (v6 gs 0)
    | _ => none

/-! ### Abbreviated IPv4 hosts -/

/-- The value of an octal digit. -/
def octal? (c : Char) : Option Nat := (Numeral.digit? c).filter (· < 8)

/-- A number that is nothing but digits of the given base. -/
def whole? (value? : Char → Option Nat) (base : Nat) (ds : List Char) : Option Nat :=
  match number? value? base ds.length true UInt32.size ds with
  | some (n, []) => some n
  | _ => none

/-- A number of an abbreviated host: hexadecimal behind `0x`, octal behind `0`, else decimal. -/
def part? : List Char → Option Nat
  | '0' :: 'x' :: ds | '0' :: 'X' :: ds => whole? Hex.value? 16 ds
  | '0' :: ds => whole? octal? 8 ('0' :: ds)
  | ds => whole? Numeral.digit? 10 ds

/-- The number that `room` bytes make up, if each number stands for one byte and the last for all that are
    left. -/
def join? : Nat → List Nat → Option Nat
  | room + 1, [n] => if n < 256 ^ (room + 1) then some n else none
  | room + 1, n :: rest => if n < 256 then (join? room rest).map (n * 256 ^ room + ·) else none
  | _, _ => none

/-- Reads an IPv4 host of one to four numbers with points between them. -/
def abbreviated? (s : String) : Option Host := do
  let n ← join? 4 (← (s.splitOn ".").mapM fun p => part? p.toList)
  some (v4 (UInt8.ofNat (n / 16777216)) (UInt8.ofNat (n / 65536)) (UInt8.ofNat (n / 256)) (UInt8.ofNat n))

end Host

namespace Address

/-- The text of an address. -/
def text (a : Address) : String :=
  match a.host with
  | .v4 x y z w => Host.v4Text x y z w ++ ":" ++ toString a.port
  | .v6 gs scope =>
    let zone := if scope = 0 then "" else "%" ++ toString scope
    "[" ++ Host.v6Text gs ++ zone ++ "]:" ++ toString a.port

/-- The port behind the host. -/
def port? (cs : List Char) : Option Nat :=
  match (Host.after? ':' cs).bind (Host.number? Numeral.digit? 10 cs.length true 65536) with
  | some (n, []) => some n
  | _ => none

/-- The scope behind an IPv6 host. -/
def scope (cs : List Char) : Nat × List Char :=
  ((Host.after? '%' cs).bind (Host.number? Numeral.digit? 10 cs.length true UInt32.size)).getD (0, cs)

/-- Reads an address. -/
def ofText? (s : String) : Option Address :=
  match Host.v4? s.toList with
  | some ((a, b, c, d), rest) => (port? rest).map fun p => ⟨.v4 a b c d, p⟩
  | none => do
    let (gs, rest) ← Host.v6? (← Host.after? '[' s.toList)
    let (zone, rest) := scope rest
    let p ← port? (← Host.after? ']' rest)
    some ⟨.v6 gs zone, p⟩

end Address
end CallRelay
