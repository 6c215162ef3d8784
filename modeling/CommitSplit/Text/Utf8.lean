/-!
# UTF-8

Bytes are decoded one sequence at a time. Where no sequence begins, the longest start of one is a
single fault: a lenient reader puts the replacement character there and a strict one refuses the
text.
-/

namespace CommitSplit.Text.Utf8

/-- The number of continuation bytes behind a first byte, and the range of the first of them. -/
def shape? (first : UInt8) : Option (Nat × UInt8 × UInt8) :=
  if 0xc2 ≤ first ∧ first ≤ 0xdf then some (1, 0x80, 0xbf)
  else if first = 0xe0 then some (2, 0xa0, 0xbf)
  else if first = 0xed then some (2, 0x80, 0x9f)
  else if 0xe1 ≤ first ∧ first ≤ 0xef then some (2, 0x80, 0xbf)
  else if first = 0xf0 then some (3, 0x90, 0xbf)
  else if 0xf1 ≤ first ∧ first ≤ 0xf3 then some (3, 0x80, 0xbf)
  else if first = 0xf4 then some (3, 0x80, 0x8f)
  else none

/-- The payload of a first byte with the given number of continuation bytes. -/
def leadBits (first : UInt8) (count : Nat) : Nat :=
  first.toNat % Nat.pow 2 (6 - count)

/-- Reads up to `count` continuation bytes, the first of them within the range. Answers the code
point, unless a byte is missing, and the bytes behind. -/
def continuation : Nat → UInt8 → UInt8 → Nat → List UInt8 → Option Nat × List UInt8
  | 0, _, _, code, bytes => (some code, bytes)
  | _ + 1, _, _, _, [] => (none, [])
  | count + 1, low, high, code, b :: bytes =>
    if low ≤ b ∧ b ≤ high then continuation count 0x80 0xbf (code * 64 + b.toNat % 64) bytes
    else (none, b :: bytes)

/-- Decodes at most `steps` sequences; a fault is `none`. -/
def decodeSteps : Nat → List UInt8 → List (Option Char)
  | 0, _ => []
  | _ + 1, [] => []
  | steps + 1, first :: bytes =>
    if first < 0x80 then some (Char.ofNat first.toNat) :: decodeSteps steps bytes
    else
      match shape? first with
      | none => none :: decodeSteps steps bytes
      | some (count, low, high) =>
        let (code, rest) := continuation count low high (leadBits first count) bytes
        code.map Char.ofNat :: decodeSteps steps rest

/-- The characters of a byte sequence, with `none` for every fault. -/
def decode (bytes : List UInt8) : List (Option Char) :=
  decodeSteps bytes.length bytes

/-- The text of a byte sequence without faults. -/
def text? (bytes : List UInt8) : Option String :=
  ((decode bytes).mapM id).map String.ofList

/-- The text of a byte sequence with the replacement character for every fault. -/
def lenientText (bytes : List UInt8) : String :=
  String.ofList ((decode bytes).map fun c => c.getD '\ufffd')

/-- The bytes of a text. -/
def encode (s : String) : List UInt8 :=
  s.toList.flatMap String.utf8EncodeChar

/-- A text that the strict reader accepts is the same for the lenient one. -/
theorem lenientText_of_text? {bytes : List UInt8} {s : String} (h : text? bytes = some s) :
    lenientText bytes = s := by
  obtain ⟨cs, found, rfl⟩ := Option.map_eq_some_iff.1 h
  have all : ∀ (xs : List (Option Char)) (ys : List Char),
      xs.mapM id = some ys → (xs.map fun c => c.getD '\ufffd') = ys := by
    intro xs
    induction xs with
    | nil => intro ys h; simp_all
    | cons x xs ih =>
      intro ys h
      cases x with
      | none => simp at h
      | some c =>
        simp only [List.mapM_cons, id, Option.bind_eq_bind, Option.bind_some] at h
        obtain ⟨zs, rest, h⟩ := Option.bind_eq_some_iff.1 h
        simp only [Option.pure_def, Option.some.injEq] at h
        simp [ih zs rest, ← h]
  rw [lenientText, all _ _ found]

end CommitSplit.Text.Utf8
