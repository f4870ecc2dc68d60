import Mathlib.Data.List.Infix
import ModAtlas.Text.Utf8

/-!
# UTF-8 is read back

The octets of a character lead a scan through the state that their first octet promises back to a
boundary, where the character is given. Hence what is encoded is decoded to itself, strictly and
leniently, and a byte order mark is read as the character that it is.
-/

namespace ModAtlas.Text.Utf8

/-! ## Single octets -/

/-- An octet is scanned by one step. -/
theorem scanFrom_cons (state : State) (octet : UInt8) (rest : List UInt8) :
    scanFrom state (octet :: rest) =
      (step state octet.toNat).1 ++ scanFrom (step state octet.toNat).2 rest := by
  cases state <;> rfl

theorem toNat_octet {n : Nat} (h : n < 256) : (UInt8.ofNat n).toNat = n :=
  UInt8.toNat_ofNat_of_lt' h

section Octets
variable {n k x bits low high : Nat} (rest : List UInt8)

theorem scanFrom_ascii (h : n < 0x80) :
    scanFrom .boundary (UInt8.ofNat n :: rest) =
      some (Char.ofNat n) :: scanFrom .boundary rest := by
  rw [scanFrom_cons, toNat_octet (by omega), step, first, if_pos h]
  rfl

/-- An octet that a character goes on with. -/
theorem scanFrom_inner {missing : Nat} (hlow : low ≤ 0x80 + x) (hhigh : 0x80 + x ≤ high)
    (hx : x < 64) :
    scanFrom (.inside (missing + 2) bits low high) (UInt8.ofNat (0x80 + x) :: rest) =
      scanFrom (.inside (missing + 1) (bits * 64 + x) 0x80 0xbf) rest := by
  rw [scanFrom_cons, toNat_octet (by omega), step, if_pos ⟨hlow, hhigh⟩, Nat.add_sub_cancel_left]
  rfl

/-- The octet that a character ends with. -/
theorem scanFrom_last (hlow : low ≤ 0x80 + x) (hhigh : 0x80 + x ≤ high) (hx : x < 64) :
    scanFrom (.inside 1 bits low high) (UInt8.ofNat (0x80 + x) :: rest) =
      some (Char.ofNat (bits * 64 + x)) :: scanFrom .boundary rest := by
  rw [scanFrom_cons, toNat_octet (by omega), step, if_pos ⟨hlow, hhigh⟩, Nat.add_sub_cancel_left]
  rfl

theorem scanFrom_first {state : State} (hn : n < 256) (h : first n = ([], state)) :
    scanFrom .boundary (UInt8.ofNat n :: rest) = scanFrom state rest := by
  rw [scanFrom_cons, toNat_octet hn, step, h]
  rfl

/-- The first octet of two. -/
theorem first_two : ∀ k < 32, 2 ≤ k → first (0xc0 + k) = ([], .inside 1 k 0x80 0xbf) := by
  decide

/-- The first octet of three. What is shorter and what is a surrogate is kept out. -/
theorem first_three : ∀ k < 16, first (0xe0 + k) =
    ([], .inside 2 k (if k = 0 then 0xa0 else 0x80) (if k = 0xd then 0x9f else 0xbf)) := by
  decide

/-- The first octet of four. What is shorter and what is beyond the last character is kept out. -/
theorem first_four : ∀ k < 5, first (0xf0 + k) =
    ([], .inside 3 k (if k = 0 then 0x90 else 0x80) (if k = 4 then 0x8f else 0xbf)) := by
  decide

end Octets

/-! ## Characters -/

/-- The octets of a character are scanned as that character. -/
theorem scanFrom_encodeChar (c : Char) (rest : List UInt8) :
    scanFrom .boundary (encodeChar c ++ rest) = some c :: scanFrom .boundary rest := by
  have hvalid : c.toNat < 0xd800 ∨ 0xdfff < c.toNat ∧ c.toNat < 0x110000 := c.valid
  have hself : Char.ofNat c.toNat = c := Char.ofNat_toNat c
  unfold encodeChar
  generalize c.toNat = n at hvalid hself
  dsimp only
  split
  · rename_i hascii
    rw [List.cons_append, List.nil_append, scanFrom_ascii rest hascii, hself]
  split
  · have hbits : n / 64 * 64 + n % 64 = n := Nat.div_add_mod' n 64
    rw [List.cons_append, scanFrom_first _ (by omega) (first_two (n / 64) (by omega) (by omega)),
      List.cons_append, scanFrom_last _ (by omega) (by omega) (by omega), hbits, hself,
      List.nil_append]
  split
  · have hbits : (n / 4096 * 64 + n / 64 % 64) * 64 + n % 64 = n := by omega
    have hlow : (if n / 4096 = 0 then 0xa0 else 0x80) ≤ 0x80 + n / 64 % 64 := by split <;> omega
    have hhigh : 0x80 + n / 64 % 64 ≤ (if n / 4096 = 0xd then 0x9f else 0xbf) := by
      split <;> omega
    rw [List.cons_append, scanFrom_first _ (by omega) (first_three (n / 4096) (by omega)),
      List.cons_append, scanFrom_inner _ hlow hhigh (by omega), List.cons_append,
      scanFrom_last _ (by omega) (by omega) (by omega), hbits, hself, List.nil_append]
  · have hbits : ((n / 262144 * 64 + n / 4096 % 64) * 64 + n / 64 % 64) * 64 + n % 64 = n := by
      omega
    have hlow : (if n / 262144 = 0 then 0x90 else 0x80) ≤ 0x80 + n / 4096 % 64 := by
      split <;> omega
    have hhigh : 0x80 + n / 4096 % 64 ≤ (if n / 262144 = 4 then 0x8f else 0xbf) := by
      split <;> omega
    rw [List.cons_append, scanFrom_first _ (by omega) (first_four (n / 262144) (by omega)),
      List.cons_append, scanFrom_inner _ hlow hhigh (by omega), List.cons_append,
      scanFrom_inner _ (by omega) (by omega) (by omega), List.cons_append,
      scanFrom_last _ (by omega) (by omega) (by omega), hbits, hself, List.nil_append]

/-! ## Texts -/

theorem scan_encode (text : List Char) : scan (encode text) = text.map some := by
  induction text with
  | nil => rfl
  | cons c text ih =>
      have hcons : encode (c :: text) = encodeChar c ++ encode text := List.flatMap_cons
      rw [hcons, scan, scanFrom_encodeChar, List.map_cons]
      exact congrArg (some c :: ·) ih

theorem decodeLossy_encode (text : List Char) : decodeLossy (encode text) = text := by
  rw [decodeLossy, scan_encode, List.map_map]
  exact List.map_id text

/-- A byte order mark is read as the character U+FEFF. -/
theorem decode?_byteOrderMark (octets : List UInt8) :
    decode? (byteOrderMark ++ octets) = (decode? octets).map ('\ufeff' :: ·) := by
  have hmark : byteOrderMark = encodeChar '\ufeff' := by decide
  rw [hmark, decode?, scan, scanFrom_encodeChar]
  rfl

/-- Octets begin with a byte order mark or are taken as they are. -/
theorem dropMark_cases (octets : List UInt8) :
    octets = byteOrderMark ++ dropMark octets ∨ dropMark octets = octets := by
  unfold dropMark
  cases hprefix : List.isPrefixOf? byteOrderMark octets with
  | none => exact .inr rfl
  | some rest => exact .inl (List.isPrefixOf?_eq_some_iff_append_eq.mp hprefix).symm

end ModAtlas.Text.Utf8
