import ModAtlas.Proofs.Text.Utf8
import ModAtlas.Text.Percent

/-!
# Percent escapes are read back

Decoding takes an escaped octet, or a plain one, to that octet among those it holds back until a
character beyond ASCII. What is escaped holds no such character, so that decoding it gives the
text it was escaped from. Nothing reserved in a URI stands in what is escaped.
-/

namespace ModAtlas.Text.Percent
open ModAtlas.Json

/-! ## Octets -/

theorem hexDigit?_upperHex : ∀ n < 16, hexDigit? (upperHex n) = some n := by decide

/-- A plain octet is an ASCII character other than a percent sign. -/
theorem ascii_of_isPlain : ∀ n < 256, isPlain (UInt8.ofNat n) = true →
    (Char.ofNat n).toNat = n ∧ n < 0x80 ∧ Char.ofNat n ≠ '%' := by
  decide +kernel

section Decoding
variable (pending : List UInt8) (rest : List Char)

theorem decodeFrom_plain {c : Char} (hascii : c.toNat < 0x80) (hpercent : c ≠ '%') :
    decodeFrom pending (c :: rest) = decodeFrom (UInt8.ofNat c.toNat :: pending) rest := by
  rw [decodeFrom, if_pos hascii]
  exact fun _ _ _ h _ => hpercent h

theorem decodeFrom_escape {a b : Char} {x y : Nat} (ha : hexDigit? a = some x)
    (hb : hexDigit? b = some y) :
    decodeFrom pending ('%' :: a :: b :: rest) =
      decodeFrom (UInt8.ofNat (x * 16 + y) :: pending) rest := by
  rw [decodeFrom, ha, hb]

/-- An escaped octet is held back as that octet. -/
theorem decodeFrom_encodeOctet (octet : UInt8) :
    decodeFrom pending (encodeOctet octet ++ rest) = decodeFrom (octet :: pending) rest := by
  have hlt : octet.toNat < 256 := octet.toNat_lt
  unfold encodeOctet
  split
  · rename_i hplain
    rw [← UInt8.ofNat_toNat (x := octet)] at hplain
    obtain ⟨hself, hascii, hpercent⟩ := ascii_of_isPlain octet.toNat hlt hplain
    rw [List.singleton_append, decodeFrom_plain _ _ (hself.symm ▸ hascii) hpercent, hself,
      UInt8.ofNat_toNat]
  · have hoctet : octet.toNat / 16 * 16 + octet.toNat % 16 = octet.toNat := Nat.div_add_mod' _ _
    rw [List.cons_append, List.cons_append, List.cons_append, List.nil_append,
      decodeFrom_escape _ _ (hexDigit?_upperHex _ (by omega)) (hexDigit?_upperHex _ (by omega)),
      hoctet, UInt8.ofNat_toNat]

end Decoding

/-! ## Texts -/

theorem decodeFrom_encoded (pending octets : List UInt8) :
    decodeFrom pending (octets.flatMap encodeOctet) =
      Utf8.decodeLossy (pending.reverse ++ octets) := by
  induction octets generalizing pending with
  | nil => rw [List.flatMap_nil, decodeFrom, List.append_nil]
  | cons octet octets ih =>
      rw [List.flatMap_cons, decodeFrom_encodeOctet, ih, List.reverse_cons, List.append_assoc,
        List.singleton_append]

/-- What is escaped is decoded to the text it was escaped from. -/
theorem decode_encode (text : List Char) : decode (encode text) = text := by
  rw [decode, encode, decodeFrom_encoded, List.reverse_nil, List.nil_append,
    Utf8.decodeLossy_encode]

/-- Characters with a meaning of their own in a URI or around it, and line ends. -/
def reserved : List Char := ['?', '#', '[', ']', ':', '\t', '\r', '\n']

/-- Nothing reserved stands in what is escaped, and nothing but ASCII. -/
theorem encode_char {text : List Char} {c : Char} (h : c ∈ encode text) :
    c.toNat < 0x80 ∧ c ∉ reserved := by
  have hoctet : ∀ n < 256, (encodeOctet (UInt8.ofNat n)).all
      (fun c => decide (c.toNat < 0x80 ∧ c ∉ reserved)) = true := by decide +kernel
  obtain ⟨octet, -, hc⟩ := List.mem_flatMap.mp h
  have hall := hoctet octet.toNat octet.toNat_lt
  rw [UInt8.ofNat_toNat, List.all_eq_true] at hall
  exact of_decide_eq_true (hall c hc)

theorem notMem_encode {text : List Char} {c : Char} (h : c ∈ reserved) : c ∉ encode text :=
  fun hc => (encode_char hc).2 h

/-- A slash stays at the start of what is escaped. -/
theorem encode_slash (text : List Char) : encode ('/' :: text) = '/' :: encode text := by
  have hslash : encode ['/'] = ['/'] := by decide
  have happend : encode (['/'] ++ text) = encode ['/'] ++ encode text := by
    simp only [encode, Utf8.encode, List.flatMap_append]
  rw [← List.singleton_append, happend, hslash, List.singleton_append]

end ModAtlas.Text.Percent
