import ModAtlas.Schema.Pointer
import ModAtlas.Validation.Reference

/-!
# Targets of references

A reference is followed in two ways: as a local pointer, slashes at whose start count once, and as
a fragment whose percent escapes are decoded first. `target?_of_resolve` says that both lead to
the same schema when the reference is literal, that is, has no percent sign and neither a second
slash nor a line feed at the start of its pointer.
-/

namespace ModAtlas.Text

/-! ## Texts without escapes -/

theorem Utf8.decodeLossy_ascii {cs : List Char} (h : ∀ c ∈ cs, c.toNat < 0x80) :
    Utf8.decodeLossy (cs.map fun c => UInt8.ofNat c.toNat) = cs := by
  induction cs with
  | nil => rfl
  | cons c cs ih =>
      obtain ⟨hc, hcs⟩ := List.forall_mem_cons.mp h
      have hoctet : (UInt8.ofNat c.toNat).toNat = c.toNat := by
        rw [UInt8.toNat_ofNat']
        omega
      have hfirst : Utf8.step .boundary c.toNat = ([some c], .boundary) := by
        simp [Utf8.step, Utf8.first, hc]
      rw [List.map_cons, Utf8.decodeLossy, Utf8.scan, Utf8.scanFrom, hoctet, hfirst]
      exact congrArg (c :: ·) (ih hcs)

theorem Percent.decodeFrom_of_notMem (cs : List Char) {s : List Char} (hs : '%' ∉ s)
    (hcs : ∀ c ∈ cs, c.toNat < 0x80) :
    Percent.decodeFrom (cs.map fun c => UInt8.ofNat c.toNat).reverse s = cs ++ s := by
  induction s generalizing cs with
  | nil =>
    rw [Percent.decodeFrom, List.reverse_reverse, Utf8.decodeLossy_ascii hcs, List.append_nil]
  | cons c s ih =>
      obtain ⟨hc, hs⟩ : '%' ≠ c ∧ '%' ∉ s := by simpa using hs
      rw [Percent.decodeFrom]
      · split
        · rename_i hascii
          have hmore := ih (cs ++ [c]) hs
            (List.forall_mem_append.mpr ⟨hcs, List.forall_mem_singleton.mpr hascii⟩)
          simpa using hmore
        · rw [List.reverse_reverse, Utf8.decodeLossy_ascii hcs]
          exact congrArg (cs ++ c :: ·) (ih [] hs (by simp))
      · rintro a b rest rfl
        exact absurd rfl hc

/-- A text without percent signs stays as it is. -/
theorem Percent.decode_of_notMem {s : List Char} (hs : '%' ∉ s) : Percent.decode s = s :=
  Percent.decodeFrom_of_notMem [] hs (by simp)

theorem mem_of_mem_strip {p : Char → Bool} {s : List Char} {c : Char} (h : c ∈ strip p s) :
    c ∈ s := by
  have hinner := List.mem_reverse.mp ((List.dropWhile_sublist p).mem (List.mem_reverse.mp h))
  exact (List.dropWhile_sublist p).mem hinner

end ModAtlas.Text

namespace ModAtlas.Number
open ModAtlas.Text

/-- A text that shows digits only is read as no negative number. -/
theorem nonneg_of_readInt? {text : List Char} {n : Int} (hread : readInt? text = some n)
    (hdigits : ∀ c ∈ text, isDigitLike c = true) : 0 ≤ n := by
  have hsign : (signed (trimmed text)).1 = false := by
    cases htrimmed : trimmed text with
    | nil => rfl
    | cons c rest =>
        have hmem : c ∈ text := by
          have hin : c ∈ trimmed text := htrimmed ▸ List.mem_cons_self
          exact mem_of_mem_strip hin
        have hminus : c ≠ '-' := by
          rintro rfl
          exact absurd (hdigits _ hmem) (by decide)
        unfold signed
        split
        · rename_i heq
          exact absurd (List.cons.inj heq).1 hminus
        · rfl
        · rfl
  rw [readInt?] at hread
  dsimp only at hread
  rw [hsign] at hread
  split at hread
  · cases hread
  · split at hread
    · cases hread
    · cases hread
      simp
  · cases hread

end ModAtlas.Number

namespace ModAtlas.Validation
open ModAtlas.Json ModAtlas.Text ModAtlas.Schema

/-! ## Tokens -/

theorem tokenChars_eq_unescapeChars (token : List Char) :
    tokenChars token = Pointer.unescapeChars token := by
  fun_induction tokenChars token with
  | case1 => rfl
  | case2 rest ih => rw [Pointer.unescapeChars, ih]
  | case3 rest ih => rw [Pointer.unescapeChars, ih]
  | case4 c rest hslash htilde ih => rw [Pointer.unescapeChars, ih] <;> assumption

/-- An escape does not show a digit. -/
theorem unescapeChars_of_isDigitLike {token : List Char}
    (h : ∀ c ∈ Pointer.unescapeChars token, isDigitLike c = true) :
    Pointer.unescapeChars token = token := by
  fun_induction Pointer.unescapeChars token with
  | case1 => rfl
  | case2 rest ih => exact absurd (h '/' List.mem_cons_self) (by decide)
  | case3 rest ih => exact absurd (h '~' List.mem_cons_self) (by decide)
  | case4 c rest hslash htilde ih => rw [ih fun d hd => h d (List.mem_cons_of_mem _ hd)]

theorem followTokens_obj (token : List Char) (tokens : List (List Char)) (members : Members) :
    followTokens (token :: tokens) (.obj members) =
      (Members.get? members (String.ofList (tokenChars token))).bind (followTokens tokens) := rfl

theorem followTokens_arr (token : List Char) (tokens : List (List Char)) (items : List Value) :
    followTokens (token :: tokens) (.arr items) =
      ((Number.readInt? token).bind (itemAt items)).bind (followTokens tokens) := rfl

/-- What a step of a pointer enters is what the token of a reference leads to. -/
theorem followTokens_of_enter {token : List Char} {tokens : List (List Char)} {v next : Value}
    (h : Pointer.enter (Pointer.unescape token) v = .ok (some next)) :
    followTokens (token :: tokens) v = followTokens tokens next := by
  unfold Pointer.unescape at h
  cases v with
  | obj members =>
      have hmember : Members.get? members (String.ofList (Pointer.unescapeChars token)) =
          some next := Except.ok.inj h
      rw [followTokens_obj, tokenChars_eq_unescapeChars, hmember, Option.bind_some]
  | arr items =>
      unfold Pointer.enter at h
      dsimp only at h
      split at h
      · rename_i hindex
        split at h
        · cases h
        · rename_i n hread
          have hdigits : ∀ c ∈ Pointer.unescapeChars token, isDigitLike c = true := by
            simp only [Pointer.isIndex, Bool.and_eq_true, String.toList_ofList,
              List.all_eq_true] at hindex
            exact hindex.2
          rw [String.toList_ofList, unescapeChars_of_isDigitLike hdigits] at hread
          rw [unescapeChars_of_isDigitLike hdigits] at hdigits
          have hitem : items[n.toNat]? = some next := Except.ok.inj h
          rw [followTokens_arr, hread, Option.bind_some, itemAt,
            if_pos (Number.nonneg_of_readInt? hread hdigits), hitem, Option.bind_some]
      · cases h
  | null | bool | num | str => cases h

theorem followTokens_of_follow {tokens : List (List Char)} {v schema : Value}
    (h : Pointer.follow (tokens.map Pointer.unescape) v = .ok (some schema)) :
    followTokens tokens v = some schema := by
  induction tokens generalizing v with
  | nil =>
      cases h
      rfl
  | cons token tokens ih =>
      rw [List.map_cons, Pointer.follow] at h
      cases henter : Pointer.enter (Pointer.unescape token) v with
      | error e =>
          rw [henter] at h
          cases h
      | ok next =>
          rw [henter] at h
          cases next with
          | none => cases h
          | some next =>
              rw [followTokens_of_enter henter]
              exact ih h

/-! ## References -/

/-- A reference that is read as it is written: nothing in it is escaped by a percent sign, and its
pointer does not start with a further slash nor with a line feed. -/
def IsLiteral (ref : String) : Prop :=
  '%' ∉ ref.toList ∧ ¬ ['#', '/', '/'] <+: ref.toList ∧ ¬ ['#', '\n'] <+: ref.toList

/-- A local reference starts with a number sign. -/
theorem exists_of_localTarget? {ref pointer : String}
    (hlocal : Pointer.localTarget? (.str ref) = some pointer) :
    ∃ rest, ref.toList = '#' :: rest := by
  simp only [Pointer.localTarget?] at hlocal
  split at hlocal
  · rename_i rest hrest
    exact ⟨rest, hrest⟩
  · cases hlocal

/-- What follows the number sign of a local reference starts with a slash, or it is a line feed. -/
theorem eq_slash_of_localTarget? {ref pointer : String} {c : Char} {chars : List Char}
    (hchars : ref.toList = '#' :: c :: chars) (hline : ¬ ['#', '\n'] <+: ref.toList)
    (hlocal : Pointer.localTarget? (.str ref) = some pointer) : c = '/' := by
  have hkept : ∃ more, dropLastNewline (c :: chars) = c :: more := by
    unfold dropLastNewline
    split
    · rename_i hlast
      cases chars with
      | nil =>
          -- a line feed alone would be the whole pointer
          obtain rfl : c = '\n' := by simpa using hlast
          exact absurd ⟨[], by rw [hchars]; rfl⟩ hline
      | cons d chars => exact ⟨(d :: chars).dropLast, rfl⟩
    · exact ⟨chars, rfl⟩
  obtain ⟨more, hmore⟩ := hkept
  simp only [Pointer.localTarget?] at hlocal
  rw [hchars] at hlocal
  simp only [hmore] at hlocal
  split at hlocal
  · rename_i hslash
    exact hslash.1
  · cases hlocal

theorem eq_of_localTarget? {ref pointer : String} {chars : List Char}
    (hchars : ref.toList = '#' :: '/' :: chars)
    (hlocal : Pointer.localTarget? (.str ref) = some pointer) :
    pointer = String.ofList ('/' :: chars) := by
  simp only [Pointer.localTarget?] at hlocal
  rw [hchars] at hlocal
  split at hlocal
  · rename_i heq
    cases heq
    split at hlocal
    · exact (Option.some.inj hlocal).symm
    · split at hlocal
      · exact (Option.some.inj hlocal).symm
      · cases hlocal
  · cases hlocal

/-- A pointer with one slash at its start has all parts between the slashes as its tokens. -/
theorem tokens_of_single_slash {chars : List Char} (h : ¬ ['/'] <+: chars) :
    Pointer.tokens (String.ofList ('/' :: chars)) = (splitOn '/' chars).map Pointer.unescape := by
  have hstart : chars.dropWhile (· == '/') = chars := by
    cases chars with
    | nil => rfl
    | cons c chars =>
        have hc : c ≠ '/' := by
          rintro rfl
          exact h ⟨chars, rfl⟩
        simp [hc]
  rw [Pointer.tokens, String.toList_ofList, List.dropWhile_cons_of_pos (by rfl), hstart]

/-- Both ways of following a literal reference lead to the same schema. -/
theorem target?_of_resolve {root schema : Value} {ref pointer : String}
    (hliteral : IsLiteral ref) (hlocal : Pointer.localTarget? (.str ref) = some pointer)
    (hresolve : Pointer.resolve root pointer = .ok (some schema)) :
    target? root ref = some schema := by
  obtain ⟨hpercent, hslash, hline⟩ := hliteral
  obtain ⟨rest, hrest⟩ := exists_of_localTarget? hlocal
  cases rest with
  | nil =>
      have hpointer : pointer = "" := by
        simp only [Pointer.localTarget?] at hlocal
        rw [hrest] at hlocal
        exact (Option.some.inj hlocal).symm
      subst hpointer
      cases hresolve
      simp [target?, hrest]
  | cons c chars =>
      obtain rfl := eq_slash_of_localTarget? hrest hline hlocal
      have hpointer := eq_of_localTarget? hrest hlocal
      rw [hrest] at hpercent hslash
      have htokens : Pointer.tokens pointer = (splitOn '/' chars).map Pointer.unescape := by
        rw [hpointer]
        apply tokens_of_single_slash
        rintro ⟨more, rfl⟩
        exact hslash ⟨more, rfl⟩
      have hdecode : Percent.decode chars = chars := by
        apply Percent.decode_of_notMem
        intro hmem
        exact hpercent (List.mem_cons_of_mem _ (List.mem_cons_of_mem _ hmem))
      have hne : pointer.isEmpty = false := by simp [hpointer]
      rw [Pointer.resolve, hne, if_neg Bool.false_ne_true, htokens] at hresolve
      simp only [target?, hrest, hdecode]
      exact followTokens_of_follow hresolve

end ModAtlas.Validation
