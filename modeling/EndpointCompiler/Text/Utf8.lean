/-! Sizes and bytes of text in UTF-8, and the reading of bytes back to characters. -/

namespace EndpointCompiler

/-- The number of bytes that a text takes. -/
def utf8Length (cs : List Char) : Nat :=
  cs.foldr (fun c n => c.utf8Size + n) 0

@[simp] theorem utf8Length_nil : utf8Length [] = 0 := rfl

@[simp] theorem utf8Length_cons (c : Char) (cs : List Char) :
    utf8Length (c :: cs) = c.utf8Size + utf8Length cs := rfl

theorem utf8Length_append (cs ds : List Char) :
    utf8Length (cs ++ ds) = utf8Length cs + utf8Length ds := by
  induction cs with
  | nil => simp
  | cons c cs ih => simp only [List.cons_append, utf8Length_cons, ih, Nat.add_assoc]

namespace Utf8

def encodeChar (c : Char) : List Nat :=
  let n := c.toNat
  if n < 0x80 then [n]
  else if n < 0x800 then [0xC0 + n / 0x40, 0x80 + n % 0x40]
  else if n < 0x10000 then [0xE0 + n / 0x1000, 0x80 + n / 0x40 % 0x40, 0x80 + n % 0x40]
  else [0xF0 + n / 0x40000, 0x80 + n / 0x1000 % 0x40, 0x80 + n / 0x40 % 0x40, 0x80 + n % 0x40]

def encode (cs : List Char) : List Nat :=
  cs.flatMap encodeChar

/-- What a leading byte announces: the least and greatest byte that may follow it, how many bytes
follow in all, and the bits it carries. -/
structure Lead where
  low : Nat
  high : Nat
  following : Nat
  bits : Nat

/-- The leading bytes of well-formed sequences of two bytes and more. Overlong forms, surrogates
and code points past U+10FFFF are kept out by the bounds on the second byte. -/
def lead? (b : Nat) : Option Lead :=
  if 0xC2 ≤ b ∧ b ≤ 0xDF then some ⟨0x80, 0xBF, 1, b - 0xC0⟩
  else if b = 0xE0 then some ⟨0xA0, 0xBF, 2, 0⟩
  else if b = 0xED then some ⟨0x80, 0x9F, 2, 0xD⟩
  else if 0xE1 ≤ b ∧ b ≤ 0xEF then some ⟨0x80, 0xBF, 2, b - 0xE0⟩
  else if b = 0xF0 then some ⟨0x90, 0xBF, 3, 0⟩
  else if 0xF1 ≤ b ∧ b ≤ 0xF3 then some ⟨0x80, 0xBF, 3, b - 0xF0⟩
  else if b = 0xF4 then some ⟨0x80, 0x8F, 3, 4⟩
  else none

/-- Takes the bytes that are still owed to a sequence, as far as they are well formed, and gives
the code point if none is missing. -/
def tail : Lead → List Nat → Option Nat × List Nat
  | ⟨_, _, 0, bits⟩, bs => (some bits, bs)
  | _, [] => (none, [])
  | ⟨low, high, n + 1, bits⟩, b :: bs =>
    if low ≤ b ∧ b ≤ high then tail ⟨0x80, 0xBF, n, bits * 0x40 + (b - 0x80)⟩ bs
    else (none, b :: bs)

theorem tail_length_le (l : Lead) (bs : List Nat) : (tail l bs).2.length ≤ bs.length := by
  induction bs generalizing l with
  | nil => obtain ⟨low, high, n, bits⟩ := l; cases n <;> simp [tail]
  | cons b bs ih =>
    obtain ⟨low, high, n, bits⟩ := l
    cases n with
    | zero => simp [tail]
    | succ n =>
      rw [tail]
      split
      · exact Nat.le_succ_of_le (ih _)
      · exact Nat.le_refl _

/-- Reads bytes as characters; a maximal piece that begins no well-formed sequence is none. -/
def decodeChars (bytes : List Nat) : List (Option Char) :=
  match bytes with
  | [] => []
  | b :: bs =>
    if b < 0x80 then some (Char.ofNat b) :: decodeChars bs
    else match lead? b with
      | none => none :: decodeChars bs
      | some l => (tail l bs).1.map Char.ofNat :: decodeChars (tail l bs).2
termination_by bytes.length
decreasing_by
  all_goals simp only [List.length_cons]
  · omega
  · omega
  · have := tail_length_le l bs
    omega

def decode? (bytes : List Nat) : Option (List Char) :=
  (decodeChars bytes).mapM id

/-- The text of any bytes: what is ill formed reads as U+FFFD. -/
def decodeLossy (bytes : List Nat) : List Char :=
  (decodeChars bytes).map (·.getD '\uFFFD')

end Utf8

end EndpointCompiler
