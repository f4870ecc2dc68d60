import ModAtlas.Proofs.Text.Boundaries
import ModAtlas.Proofs.Text.Occurrences
import ModAtlas.Workspace.Localization

/-!
# Positions of keys

A key in quotes is sought line by line, by the wide class of line boundaries. What is found is
the first occurrence in the text with a colon behind it on its line, or else the first occurrence,
at its place by that class of boundaries. Documents count lines by line feeds, so the position
leads back to the occurrence just where no other boundary stands before it.
-/

namespace ModAtlas.Workspace
open ModAtlas.Files ModAtlas.Text

/-- A key in quotes. -/
def quoted (key : String) : List Char := '"' :: (key.toList ++ ['"'])

/-- The key stands in quotes at an offset. -/
def OccursAt (key : String) (text : List Char) (o : Nat) : Prop := quoted key <+: text.drop o

/-- What stands in quotes at an offset has a colon behind it on its line. -/
def ColonAfter (ends : Char → Bool) (key : String) (text : List Char) (o : Nat) : Prop :=
  colonFollows ((text.drop (o + (quoted key).length)).takeWhile (!ends ·)) = true

instance (key : String) (text : List Char) (o : Nat) : Decidable (OccursAt key text o) :=
  inferInstanceAs (Decidable (quoted key <+: text.drop o))

instance (ends : Char → Bool) (key : String) (text : List Char) (o : Nat) :
    Decidable (ColonAfter ends key text o) :=
  inferInstanceAs (Decidable (_ = true))

/-- The first occurrence of a key that has a colon behind it on its line, or else the first
occurrence. -/
@[mk_iff]
structure IsFirstKey (ends : Char → Bool) (key : String) (text : List Char) (o : Nat) : Prop where
  occurs : OccursAt key text o
  first :
    (ColonAfter ends key text o ∧ ∀ i, OccursAt key text i → ColonAfter ends key text i → o ≤ i) ∨
      ∀ i, OccursAt key text i → ¬ ColonAfter ends key text i ∧ o ≤ i

/-! ## Line by line -/

section Lines
variable {key : String} {line rest text : List Char} {b : Char}

theorem quoted_ne_nil : quoted key ≠ [] := List.cons_ne_nil _ _

/-- The boundaries in a quoted key are those of the key. -/
theorem isLine_quoted_iff :
    IsLine isLineBoundary (quoted key) ↔ IsLine isLineBoundary key.toList := by
  have hquote : isLineBoundary '"' = false := by decide
  constructor
  · exact fun h c hc => h c (by simp [quoted, hc])
  · intro h c hc
    simp only [quoted, List.mem_cons, List.mem_append, List.not_mem_nil, or_false] at hc
    rcases hc with rfl | hc | rfl
    · exact hquote
    · exact h c hc
    · exact hquote

theorem keyOccurrences_line (h : IsLine isLineBoundary line) : keyOccurrences key line =
    (occurrences (quoted key) 0 line).map fun x => (0, x.1, x.2) := by
  have hlines : splitLines line = if line.isEmpty then [] else [line] := splitLinesFrom_line h
  cases line with
  | nil => rfl
  | cons c line => simp [keyOccurrences, hlines, quoted, List.range_one]

theorem keyOccurrences_cut (h : IsLine isLineBoundary line) (hb : isLineBoundary b = true)
    (hreturn : b ≠ '\r') : keyOccurrences key (line ++ b :: rest) =
      (occurrences (quoted key) 0 line).map (fun x => (0, x.1, x.2)) ++
        (keyOccurrences key rest).map fun x => (x.1 + 1, x.2) := by
  simp only [keyOccurrences, splitLines_cut h hb hreturn, List.length_cons,
    List.range_succ_eq_map, List.zip_cons_cons, List.flatMap_cons, List.zip_map_left,
    List.flatMap_map, List.map_flatMap, List.map_map, quoted]
  rfl

/-- A key with a boundary in it is not found. -/
theorem keyOccurrences_eq_nil (hreturn : '\r' ∉ text) (hkey : ¬ IsLine isLineBoundary key.toList) :
    keyOccurrences key text = [] := by
  have hnone {line : List Char} (h : IsLine isLineBoundary line) :
      occurrences (quoted key) 0 line = [] := by
    refine List.eq_nil_iff_forall_not_mem.mpr fun x hx => hkey (isLine_quoted_iff.mp ?_)
    obtain ⟨front, rfl, -⟩ := mem_occurrences_iff.mp hx
    exact fun c hc => h c (by simp [hc])
  induction text using lineInduction isLineBoundary with
  | last line h => rw [keyOccurrences_line h, hnone h, List.map_nil]
  | cut line b rest h hb ih =>
      have hreturns : '\r' ∉ line ∧ '\r' ≠ b ∧ '\r' ∉ rest := by simpa using hreturn
      rw [keyOccurrences_cut h hb hreturns.2.1.symm, hnone h, ih hreturns.2.2]
      rfl

/-- An occurrence by its place, with the text behind it on its line. -/
def located (text : List Char) (x : Nat × List Char) : Position × List Char :=
  (placeBehind isLineBoundary (text.take x.1), x.2.takeWhile (!isLineBoundary ·))

theorem located_line {x : Nat × List Char} (h : IsLine isLineBoundary line)
    (hx : x ∈ occurrences (quoted key) 0 line) : located line x = (⟨0, x.1⟩, x.2) := by
  obtain ⟨o, after⟩ := x
  obtain ⟨front, rfl, rfl⟩ := mem_occurrences_iff.mp hx
  have hfront : IsLine isLineBoundary front := fun c hc => h c (by simp [hc])
  have hafter : IsLine isLineBoundary after := fun c hc => h c (by simp [hc])
  simp [located, placeBehind_line hfront, takeWhile_line hafter]

theorem located_cut {x : Nat × List Char} (h : IsLine isLineBoundary line)
    (hb : isLineBoundary b = true) (hx : x ∈ occurrences (quoted key) 0 line) :
    located (line ++ b :: rest) (x.1, x.2 ++ b :: rest) = (⟨0, x.1⟩, x.2) := by
  rw [← located_line h hx]
  obtain ⟨o, after⟩ := x
  obtain ⟨front, rfl, rfl⟩ := mem_occurrences_iff.mp hx
  have hafter : IsLine isLineBoundary after := fun c hc => h c (by simp [hc])
  simp [located, takeWhile_line hafter, takeWhile_cut hafter hb]

/-- The same place one line further down. -/
def oneLineDown (y : Position × List Char) : Position × List Char :=
  (⟨y.1.line + 1, y.1.character⟩, y.2)

theorem located_below {x : Nat × List Char} (h : IsLine isLineBoundary line)
    (hb : isLineBoundary b = true) :
    located (line ++ b :: rest) (x.1 + (line.length + 1), x.2) = oneLineDown (located rest x) := by
  have htake : (line ++ b :: rest).take (x.1 + (line.length + 1)) =
      line ++ b :: rest.take x.1 := by
    rw [List.take_append, List.take_of_length_le (by omega),
      show x.1 + (line.length + 1) - line.length = x.1 + 1 by omega, List.take_succ_cons]
  rw [located, htake, placeBehind_cut h hb]
  rfl

/-- Searching the lines is searching the text. -/
theorem map_keyOccurrences (hreturn : '\r' ∉ text) (hkey : IsLine isLineBoundary key.toList) :
    (keyOccurrences key text).map (fun x => ((⟨x.1, x.2.1⟩ : Position), x.2.2)) =
      (occurrences (quoted key) 0 text).map (located text) := by
  induction text using lineInduction isLineBoundary with
  | last line h =>
      rw [keyOccurrences_line h, List.map_map]
      exact List.map_congr_left fun x hx => (located_line h hx).symm
  | cut line b rest h hb ih =>
      have hreturns : '\r' ∉ line ∧ '\r' ≠ b ∧ '\r' ∉ rest := by simpa using hreturn
      have hnotMem : b ∉ quoted key := fun hmem =>
        absurd (isLine_quoted_iff.mpr hkey b hmem) (by simp [hb])
      rw [keyOccurrences_cut h hb hreturns.2.1.symm, occurrences_cut hnotMem quoted_ne_nil,
        occurrences_add, List.map_append, List.map_append, List.map_map, List.map_map,
        List.map_map, List.map_map]
      congr 1
      · exact List.map_congr_left fun x hx => (located_cut h hb hx).symm
      · have hbelow := congrArg (List.map oneLineDown) (ih hreturns.2.2)
        rw [List.map_map, List.map_map] at hbelow
        exact hbelow.trans (List.map_congr_left fun x _ => (located_below h hb).symm)

end Lines

/-! ## The occurrence that counts -/

section First
variable {key : String} {text : List Char} {o : Nat} {p : Position}

/-- What a search with a fallback finds in an ordered list: the least element with a property, or
else the least one. -/
theorem find?_or_head?_eq_some_iff {α : Type} {q : Nat × α → Bool} {l : List (Nat × α)}
    (h : l.Pairwise fun x y => x.1 < y.1) {x : Nat × α} :
    (l.find? q).or l.head? = some x ↔ x ∈ l ∧
      ((q x = true ∧ ∀ y ∈ l, q y = true → x.1 ≤ y.1) ∨ ∀ y ∈ l, ¬ q y = true ∧ x.1 ≤ y.1) := by
  -- the elements before one in the list are the lesser ones
  have hbefore {front rest : List (Nat × α)} {x : Nat × α} (hl : l = front ++ x :: rest) :
      (∀ y ∈ front, y.1 < x.1) ∧ ∀ y ∈ l, y.1 < x.1 → y ∈ front := by
    rw [hl, List.pairwise_append, List.pairwise_cons] at h
    obtain ⟨-, ⟨hrest, -⟩, hfront⟩ := h
    refine ⟨fun y hy => hfront y hy x List.mem_cons_self, fun y hy hlt => ?_⟩
    rw [hl, List.mem_append, List.mem_cons] at hy
    rcases hy with hy | rfl | hy
    · exact hy
    · exact absurd hlt (Nat.lt_irrefl _)
    · exact absurd hlt (Nat.lt_asymm (hrest y hy))
  constructor
  · intro hfound
    cases hfind : l.find? q with
    | some z =>
        rw [hfind, Option.some_or] at hfound
        obtain rfl := Option.some.inj hfound
        obtain ⟨hz, front, rest, hl, hfront⟩ := List.find?_eq_some_iff_append.mp hfind
        refine ⟨List.mem_of_find?_eq_some hfind, .inl ⟨hz, fun y hy hq => ?_⟩⟩
        by_contra hlt
        simpa [hq] using hfront y ((hbefore hl).2 y hy (Nat.not_le.mp hlt))
    | none =>
        rw [hfind, Option.none_or] at hfound
        obtain ⟨rest, hl⟩ := List.head?_eq_some_iff.mp hfound
        have hleast := (hbefore (hl.trans (List.nil_append _).symm)).2
        refine ⟨List.mem_of_mem_head? hfound, .inr fun y hy => ?_⟩
        refine ⟨List.find?_eq_none.mp hfind y hy, ?_⟩
        by_contra hlt
        exact absurd (hleast y hy (Nat.not_le.mp hlt)) List.not_mem_nil
  · rintro ⟨hx, hcase⟩
    obtain ⟨front, rest, hl⟩ := List.append_of_mem hx
    have hlesser := (hbefore hl).1
    have hmem (y) (hy : y ∈ front) : y ∈ l := hl ▸ List.mem_append_left _ hy
    rcases hcase with ⟨hq, hfirst⟩ | hnone
    · have hfind : l.find? q = some x := by
        refine List.find?_eq_some_iff_append.mpr ⟨hq, front, rest, hl, fun y hy => ?_⟩
        rw [Bool.not_eq_true', ← Bool.not_eq_true]
        exact fun hqy => Nat.not_le.mpr (hlesser y hy) (hfirst y (hmem y hy) hqy)
      rw [hfind, Option.some_or]
    · have hfind : l.find? q = none := List.find?_eq_none.mpr fun y hy => (hnone y hy).1
      have hfront : front = [] := by
        refine List.eq_nil_iff_forall_not_mem.mpr fun y hy => ?_
        exact Nat.not_le.mpr (hlesser y hy) (hnone y (hmem y hy)).2
      rw [hfind, Option.none_or, hl, hfront]
      rfl

theorem keyPosition_eq (hreturn : '\r' ∉ text) (hkey : IsLine isLineBoundary key.toList) :
    keyPosition key text =
      (((occurrences (quoted key) 0 text).find? fun x => colonFollows (located text x).2).or
        (occurrences (quoted key) 0 text).head?).map
          fun x => placeBehind isLineBoundary (text.take x.1) := by
  let places := (keyOccurrences key text).map fun x => ((⟨x.1, x.2.1⟩ : Position), x.2.2)
  have hplaces : places = (occurrences (quoted key) 0 text).map (located text) :=
    map_keyOccurrences hreturn hkey
  calc keyPosition key text
      = ((places.find? fun y => colonFollows y.2).or places.head?).map Prod.fst := by
        rw [List.find?_map, List.head?_map, ← Option.map_or, Option.map_map]
        rfl
    _ = _ := by
        rw [hplaces, List.find?_map, List.head?_map, ← Option.map_or, Option.map_map]
        rfl

/-- The first key by the occurrences that a search gives. -/
theorem isFirstKey_iff_mem : IsFirstKey isLineBoundary key text o ↔
    ∃ after, (o, after) ∈ occurrences (quoted key) 0 text ∧
      ((colonFollows (located text (o, after)).2 = true ∧
          ∀ y ∈ occurrences (quoted key) 0 text, colonFollows (located text y).2 = true → o ≤ y.1) ∨
        ∀ y ∈ occurrences (quoted key) 0 text,
          ¬ colonFollows (located text y).2 = true ∧ o ≤ y.1) := by
  simp only [isFirstKey_iff, OccursAt, ColonAfter, located, Prod.forall,
    mem_occurrences_zero_iff quoted_ne_nil, and_imp]
  constructor
  · rintro ⟨hoccurs, hfirst⟩
    exact ⟨_, ⟨hoccurs, rfl⟩, by simpa using hfirst⟩
  · rintro ⟨after, ⟨hoccurs, rfl⟩, hfirst⟩
    exact ⟨hoccurs, by simpa using hfirst⟩

/-- What is found is the first key in the text, at its place by the wide class of boundaries. -/
theorem keyPosition_eq_some_iff (hreturn : '\r' ∉ text) : keyPosition key text = some p ↔
    IsLine isLineBoundary key.toList ∧ ∃ o, IsFirstKey isLineBoundary key text o ∧
      p = placeBehind isLineBoundary (text.take o) := by
  by_cases hkey : IsLine isLineBoundary key.toList
  · rw [keyPosition_eq hreturn hkey, Option.map_eq_some_iff]
    simp only [find?_or_head?_eq_some_iff pairwise_occurrences, isFirstKey_iff_mem, hkey, true_and,
      Prod.exists]
    constructor
    · rintro ⟨o, after, hfirst, rfl⟩
      exact ⟨o, ⟨after, hfirst⟩, rfl⟩
    · rintro ⟨o, ⟨after, hfirst⟩, rfl⟩
      exact ⟨o, after, hfirst, rfl⟩
  · have hnone : keyPosition key text = none := by
      rw [keyPosition, keyOccurrences_eq_nil hreturn hkey]
      rfl
    simp [hnone, hkey]

/-- Nothing is found where the key stands nowhere in quotes, or has a line boundary in it. -/
theorem keyPosition_eq_none_iff (hreturn : '\r' ∉ text) : keyPosition key text = none ↔
    (IsLine isLineBoundary key.toList → ∀ o, ¬ OccursAt key text o) := by
  by_cases hkey : IsLine isLineBoundary key.toList
  · have hnone : (∀ o, ¬ OccursAt key text o) ↔ occurrences (quoted key) 0 text = [] := by
      rw [List.eq_nil_iff_forall_not_mem]
      constructor
      · exact fun h x hx => h x.1 ((mem_occurrences_zero_iff quoted_ne_nil).mp hx).1
      · exact fun h o ho => h (o, _) ((mem_occurrences_zero_iff quoted_ne_nil).mpr ⟨ho, rfl⟩)
    rw [keyPosition_eq hreturn hkey, Option.map_eq_none_iff, Option.or_eq_none_iff, hnone,
      List.head?_eq_none_iff]
    constructor
    · exact fun h _ => h.2
    · exact fun h => ⟨by rw [h hkey]; rfl, h hkey⟩
  · have hnone : keyPosition key text = none := by
      rw [keyPosition, keyOccurrences_eq_nil hreturn hkey]
      rfl
    simp [hnone, hkey]

end First

/-! ## Positions in documents -/

section Files
variable {t : Tree} {path key : String} {text : List Char} {o : Nat} {p : Position}

theorem return_notMem_of_readText (h : readText t (Path.ofString path) = .ok (some text)) :
    '\r' ∉ text := by
  rw [readText] at h
  cases hoctets : t.octets (Path.ofString path) with
  | error e => simp [hoctets, Except.map] at h
  | ok octets =>
      rw [hoctets] at h
      obtain ⟨decoded, -, rfl⟩ := Option.map_eq_some_iff.mp (Except.ok.inj h)
      exact return_notMem_unifyNewlines decoded

theorem OccursAt.split (h : OccursAt key text o) :
    (text.take o).length = o ∧ text.drop o ≠ [] := by
  obtain ⟨rest, hrest⟩ := h
  have hne : text.drop o ≠ [] := by
    rw [← hrest]
    exact List.append_ne_nil_of_left_ne_nil quoted_ne_nil rest
  rw [Ne, List.drop_eq_nil_iff, Nat.not_le] at hne
  refine ⟨List.length_take_of_le (Nat.le_of_lt hne), ?_⟩
  rwa [Ne, List.drop_eq_nil_iff, Nat.not_le]

/-- Where line feeds are the only boundaries, both classes of line ends give the same line. -/
theorem takeWhile_of_onlyFeeds {rest : List Char} (h : OnlyFeeds rest) :
    rest.takeWhile (!isLineBoundary ·) = rest.takeWhile (!· == '\n') := by
  induction rest using lineInduction isLineBoundary with
  | last line hline => rw [takeWhile_line hline, takeWhile_line hline.feeds]
  | cut line b rest hline hb _ =>
      obtain rfl : b = '\n' := h b (by simp) hb
      rw [takeWhile_cut hline hb, takeWhile_cut hline.feeds rfl]

theorem IsFirstKey.feeds (h : IsFirstKey isLineBoundary key text o) (honly : OnlyFeeds text) :
    IsFirstKey (· == '\n') key text o := by
  have hcolon (i : Nat) :
      ColonAfter (· == '\n') key text i ↔ ColonAfter isLineBoundary key text i := by
    have hrest : OnlyFeeds (text.drop (i + (quoted key).length)) := fun c hc =>
      honly c (List.mem_of_mem_drop hc)
    rw [ColonAfter, ColonAfter, takeWhile_of_onlyFeeds hrest]
  exact ⟨h.occurs, by simpa only [hcolon] using h.first⟩

/-- A position that is found is the place of the first key by the wide class of boundaries. It
leads back to that key in a document just where line feeds are the only boundaries before it, and
in a text without other boundaries that is the first key by the lines of the document. -/
theorem keyPositionAt_place (hread : readText t (Path.ofString path) = .ok (some text))
    (h : keyPositionAt t path key = some p) :
    ∃ o, IsFirstKey isLineBoundary key text o ∧ p = placeBehind isLineBoundary (text.take o) ∧
      (offsetAt text p = o ↔ OnlyFeeds (text.take o)) ∧
      (OnlyFeeds text → offsetAt text p = o ∧ IsFirstKey (· == '\n') key text o) := by
  have hreturn := return_notMem_of_readText hread
  rw [keyPositionAt, hread] at h
  obtain ⟨-, o, hfirst, rfl⟩ := (keyPosition_eq_some_iff hreturn).mp h
  obtain ⟨hlength, hne⟩ := hfirst.occurs.split
  have hback : offsetAt text (placeBehind isLineBoundary (text.take o)) = o ↔
      OnlyFeeds (text.take o) := by
    have hfront : '\r' ∉ text.take o := mt List.mem_of_mem_take hreturn
    have hiff := offsetAt_placeBehind_iff hfront hne
    rwa [List.take_append_drop, hlength] at hiff
  refine ⟨o, hfirst, rfl, hback, fun honly => ⟨hback.mpr fun c hc => ?_, hfirst.feeds honly⟩⟩
  exact honly c (List.mem_of_mem_take hc)

/-- Two keys on lines of their own. -/
def plainLines : List Char := "\x7b\n  \"a\": \"b\",\n  \"b\": \"1\"\n\x7d".toList

/-- Two keys on one line, the text of the first with a line separator in it. -/
def separatedLine : List Char := "\x7b\"a\": \"x\u2028y\", \"b\": \"1\"\x7d".toList

/-- Two languages with those texts. -/
def languageTree : Tree where
  root := .folder .full [("en.localized_text", .file (Utf8.encode plainLines)),
    ("fr.localized_text", .file (Utf8.encode separatedLine))]
  workingFolder := .ofString "/"

/-- The key is found on its own line, past its occurrence as a text. -/
theorem keyPositionAt_place_lines :
    readText languageTree (.ofString "/en.localized_text") = .ok (some plainLines) ∧
      keyPositionAt languageTree "/en.localized_text" "b" = some ⟨2, 2⟩ ∧
      IsFirstKey (· == '\n') "b" plainLines (offsetAt plainLines ⟨2, 2⟩) := by
  have hread : readText languageTree (.ofString "/en.localized_text") = .ok (some plainLines) := by
    decide +kernel
  have hfound : keyPositionAt languageTree "/en.localized_text" "b" = some ⟨2, 2⟩ := by
    decide +kernel
  have honly : OnlyFeeds plainLines := by decide +kernel
  obtain ⟨o, -, -, -, hplace⟩ := keyPositionAt_place hread hfound
  obtain ⟨hoffset, hfirst⟩ := hplace honly
  exact ⟨hread, hfound, hoffset ▸ hfirst⟩

/-- Behind a line separator the position leads to another place in the document. -/
theorem not_forall_isFirstKey : ¬ ∀ (t : Tree) (path key : String) (text : List Char)
    (p : Position), readText t (.ofString path) = .ok (some text) →
      keyPositionAt t path key = some p → IsFirstKey (· == '\n') key text (offsetAt text p) := by
  intro h
  have hoccurs := (h languageTree "/fr.localized_text" "b" separatedLine ⟨1, 4⟩ (by decide +kernel)
    (by decide +kernel)).occurs
  exact absurd hoccurs (by decide +kernel)

end Files
end ModAtlas.Workspace
