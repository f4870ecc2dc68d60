import ModAtlas.Proofs.Workspace.KeySearch
import ModAtlas.Proofs.Workspace.Texts

/-!
# Keys that are located

Every key of a file that holds a JSON object is written in it, but the search for its position is
a search for a text. The position is that of the key just where the first key of the search is
one of the object itself. A key that needs no escape and holds no comma and no colon is found
where it is written with its colon on its line, if no other written key that ends in it comes
before.
-/

namespace ModAtlas.Workspace
open ModAtlas.Document ModAtlas.Files ModAtlas.Json ModAtlas.Text
open ModAtlas.Json.Strict (Layout)

/-- A key of the object that a text holds, with the name that is sought. -/
structure IsOwnKey (key : String) (k : WrittenKey) : Prop where
  depth : k.depth = 1
  name : k.name = key

/-! ## Occurrences and written keys -/

section Occurrences
variable {number? : Numeral → Option Number} {text front after : List Char} {v : Value}
  {key : String} {i : Nat} {k : WrittenKey}

theorem occursAt_of_eq (h : text = front ++ (quoted key ++ after)) :
    OccursAt key text front.length ∧ text.drop (front.length + (quoted key).length) = after := by
  subst h
  constructor
  · rw [OccursAt, List.drop_left]
    exact List.prefix_append _ _
  · rw [← List.drop_drop, List.drop_left, List.drop_left]

theorem OccursAt.eq (h : OccursAt key text i) :
    text = text.take i ++ (quoted key ++ text.drop (i + (quoted key).length)) := by
  obtain ⟨rest, hrest⟩ := h
  rw [← List.drop_drop, ← hrest, List.drop_left, hrest, List.take_append_drop]

/-- A colon that follows on the line follows in the text. -/
theorem colonFollows_of_takeWhile {p : Char → Bool}
    (h : colonFollows (after.takeWhile p) = true) : colonFollows after = true := by
  rw [colonFollows, beq_iff_eq] at h ⊢
  obtain ⟨rest, hrest⟩ := List.head?_eq_some_iff.mp h
  rw [← List.takeWhile_append_dropWhile (p := p) (l := after), List.dropWhile_append, hrest]
  rfl

/-- A written key occurs where it ends, with a colon behind it. -/
theorem EndsKey.occurs (h : EndsKey key i k) (hk : StandsIn number? 0 text k) :
    OccursAt key text i ∧ colonFollows (text.drop (i + (quoted key).length)) = true := by
  obtain ⟨front, left, after, htext, hleft, hoffset, -⟩ := hk
  obtain ⟨⟨r, hr⟩, hstop⟩ := h
  have hsplit : text = (front ++ r) ++ (quoted key ++ (left ++ ':' :: after)) := by
    rw [htext, ← hr]
    simp
  have hi : i = (front ++ r).length := by
    have := congrArg List.length hr
    simp only [List.length_append] at this ⊢
    omega
  obtain ⟨hoccurs, hdrop⟩ := occursAt_of_eq hsplit
  subst hi
  refine ⟨hoccurs, ?_⟩
  rw [hdrop, colonFollows_blanks hleft]
  simp [colonFollows, isBlank]

/-- A simple key occurs with a colon behind it just where a written key ends. -/
theorem occursAt_colon_iff (l : Layout number? text v) (hkey : IsSimple key) :
    OccursAt key text i ∧ colonFollows (text.drop (i + (quoted key).length)) = true ↔
      ∃ k ∈ l.keys, EndsKey key i k := by
  constructor
  · rintro ⟨hoccurs, hcolon⟩
    have hsplit : l.lead ++ (l.form.text ++ l.tail) =
        text.take i ++ (quoted key ++ text.drop (i + (quoted key).length)) := by
      rw [← l.text_eq]
      exact hoccurs.eq
    obtain ⟨more, hmore, hform⟩ := exists_past_gap (quote_notMem_blanks l.leadBlanks) hsplit
    have hi : i = l.lead.length + more.length := by
      rw [← hoccurs.split.1, hmore, List.length_append]
    by_cases hin : more.length < l.form.text.length
    · rw [hi]
      exact form_endsKey hkey hcolon l.valid (closes_blanks l.tailBlanks) hform hin
    · obtain ⟨tail, -, htail⟩ := exists_past hform (Nat.not_lt.mp hin)
      have hquote : '"' ∈ l.tail := by simp [htail, quoted]
      exact absurd hquote (quote_notMem_blanks l.tailBlanks)
  · rintro ⟨k, hk, hends⟩
    exact hends.occurs (l.standsIn hk)

end Occurrences

/-! ## Positions of keys -/

section Positions
variable {number? : Numeral → Option Number} {text : List Char} {v : Value} {key : String}
  {k : WrittenKey}

theorem ColonAfter.colonFollows {ends : Char → Bool} {i : Nat} (h : ColonAfter ends key text i) :
    colonFollows (text.drop (i + (quoted key).length)) = true :=
  colonFollows_of_takeWhile h

/-- A key that is written as it is and has its colon on its line is the first one that counts,
unless another written key that ends in it comes before. -/
theorem isFirstKey_iff_endsKey (l : Layout number? text v) (hkey : IsSimple key) (hk : k ∈ l.keys)
    (htoken : k.token = quoted key) (hcolon : ColonAfter isLineBoundary key text k.offset) :
    IsFirstKey isLineBoundary key text k.offset ↔
      ∀ k' ∈ l.keys, ∀ i, EndsKey key i k' → ColonAfter isLineBoundary key text i →
        k.offset ≤ i := by
  have hends : EndsKey key k.offset k := ⟨htoken ▸ List.suffix_refl _, by rw [htoken]⟩
  have hoccurs := (hends.occurs (l.standsIn hk)).1
  constructor
  · rintro ⟨-, hfirst | hnone⟩ k' hk' i hends' hcolon'
    · exact hfirst.2 i (hends'.occurs (l.standsIn hk')).1 hcolon'
    · exact absurd hcolon (hnone _ hoccurs).1
  · intro hleast
    refine ⟨hoccurs, .inl ⟨hcolon, fun i hi hcolon' => ?_⟩⟩
    obtain ⟨k', hk', hends'⟩ := (occursAt_colon_iff l hkey).mp ⟨hi, hcolon'.colonFollows⟩
    exact hleast k' hk' i hends' hcolon'

/-- The place of a written key is found just where that key is the first one. -/
theorem keyPosition_eq_place_iff (hreturn : '\r' ∉ text) (l : Layout number? text v)
    (hk : k ∈ l.keys) :
    keyPosition key text = some (placeBehind isLineBoundary (text.take k.offset)) ↔
      IsLine isLineBoundary key.toList ∧ IsFirstKey isLineBoundary key text k.offset := by
  have hle : k.offset ≤ text.length := by
    obtain ⟨front, left, after, htext, -, hoffset, -⟩ := l.standsIn hk
    rw [hoffset, htext]
    simp
  rw [keyPosition_eq_some_iff hreturn, and_congr_right_iff]
  refine fun _ => ⟨?_, fun hfirst => ⟨_, hfirst, rfl⟩⟩
  rintro ⟨o, hfirst, hplace⟩
  have ho : o ≤ text.length := by
    rw [← hfirst.occurs.split.1]
    exact List.length_take_le' _ _
  rwa [placeBehind_take_inj hle ho hplace]

end Positions

/-! ## Keys of files -/

section Files
variable {t : Tree} {path key : String} {members : Members}

/-- A file that holds a JSON object has its text laid out as that object. -/
theorem exists_layout_of_readJsonObject (h : readJsonObject t (.ofString path) = .ok members) :
    ∃ text, readText t (.ofString path) = .ok (some text) ∧
      Nonempty (Layout Numeral.number? text (.obj members)) := by
  obtain ⟨octets, hoctets, hread⟩ := octets_of_readJsonObject h
  obtain ⟨decoded, hdecoded, hvalue⟩ := Option.bind_eq_some_iff.mp hread
  obtain ⟨l⟩ := Strict.exists_layout hvalue
  exact ⟨unifyNewlines decoded, by simp [readText, hoctets, hdecoded, Except.map], ⟨l.unified⟩⟩

/-- A position is that of a key of the object itself, lines counted by the wide class of
boundaries. -/
def IsOwnPlace {text : List Char} {v : Value} (l : Layout Numeral.number? text v) (key : String)
    (p : Position) : Prop :=
  ∃ k ∈ l.keys, IsOwnKey key k ∧ p = placeBehind isLineBoundary (text.take k.offset)

/-- Every key of a file is written in its object. No position is found just where the key stands
nowhere in quotes or has a line boundary in it, and the position is that of the key just where the
first key of the search is one of the object itself. A simple key that is written as it is, with
its colon on its line, is found there just where no other written key that ends in it, with its
colon on its line, comes before. -/
theorem keyPositionAt_isOwnPlace (hread : readJsonObject t (.ofString path) = .ok members)
    (hkey : key ∈ members.keys) :
    ∃ text, readText t (.ofString path) = .ok (some text) ∧
      Nonempty (Layout Numeral.number? text (.obj members)) ∧
      ∀ l : Layout Numeral.number? text (.obj members),
        (∃ k ∈ l.keys, IsOwnKey key k) ∧
        (keyPositionAt t path key = none ↔
          (IsLine isLineBoundary key.toList → ∀ o, ¬ OccursAt key text o)) ∧
        ((∃ p, keyPositionAt t path key = some p ∧ IsOwnPlace l key p) ↔
          IsLine isLineBoundary key.toList ∧
            ∃ k ∈ l.keys, IsOwnKey key k ∧ IsFirstKey isLineBoundary key text k.offset) ∧
        (IsSimple key → IsLine isLineBoundary key.toList → ∀ k ∈ l.keys, k.token = quoted key →
          ColonAfter isLineBoundary key text k.offset →
            (keyPositionAt t path key = some (placeBehind isLineBoundary (text.take k.offset)) ↔
              ∀ k' ∈ l.keys, ∀ i, EndsKey key i k' → ColonAfter isLineBoundary key text i →
                k.offset ≤ i)) := by
  obtain ⟨text, htext, hlayout⟩ := exists_layout_of_readJsonObject hread
  have hreturn := return_notMem_of_readText htext
  have hsearch : keyPositionAt t path key = keyPosition key text := by
    rw [keyPositionAt, htext]
  refine ⟨text, htext, hlayout, fun l => ?_⟩
  rw [hsearch]
  refine ⟨?_, keyPosition_eq_none_iff hreturn, ?_, ?_⟩
  · obtain ⟨k, hk, hdepth, hname⟩ := l.exists_key_iff.mpr hkey
    exact ⟨k, hk, hdepth, hname⟩
  · constructor
    · rintro ⟨_, hfound, k, hk, hown, rfl⟩
      obtain ⟨hline, hfirst⟩ := (keyPosition_eq_place_iff hreturn l hk).mp hfound
      exact ⟨hline, k, hk, hown, hfirst⟩
    · rintro ⟨hline, k, hk, hown, hfirst⟩
      exact ⟨_, (keyPosition_eq_place_iff hreturn l hk).mpr ⟨hline, hfirst⟩, k, hk, hown, rfl⟩
  · intro hsimple hline k hk htoken hcolon
    rw [keyPosition_eq_place_iff hreturn l hk, isFirstKey_iff_endsKey l hsimple hk htoken hcolon]
    exact and_iff_right hline

/-- The text of a key stands in quotes before the key does. -/
def greeting : List Char := "\x7b\"a\": \"b\", \"b\": \"c\"\x7d".toList

/-- The members of that text. -/
def greetingMembers : Members := [("a", .str "b"), ("b", .str "c")]

/-- A language with that text, and one with a key that needs an escape. -/
def greetingTree : Tree where
  root := .folder .full [
    ("en.localized_text", .file (Utf8.encode greeting)),
    ("de.localized_text", .file (Utf8.encode "\x7b\"say \\\"b\\\"\": \"c\"\x7d".toList))]
  workingFolder := .ofString "/"

/-- How the text is laid out. -/
def greetingLayout : Layout Numeral.number? greeting (.obj greetingMembers) where
  lead := []
  form := .object
    (.next [] (.property "\"a\"".toList "a" [] [' '] (.scalar "\"b\"".toList (.string "b"))) []
      (.last [' ']
        (.property "\"b\"".toList "b" [] [' '] (.scalar "\"c\"".toList (.string "c"))) []))
  tail := []
  text_eq := rfl
  leadBlanks := nofun
  valid := by
    have hspace : Blanks [' '] := List.forall_mem_singleton.mpr rfl
    refine ⟨⟨nofun, ⟨?_, nofun, hspace, rfl, ?_⟩, nofun, rfl⟩,
      hspace, ⟨?_, nofun, hspace, rfl, ?_⟩, nofun, rfl⟩
    · exact .string (quoted_iff (s := ['a']) (r := []) |>.mpr ⟨rfl, rfl⟩)
    · exact .string (quoted_iff (s := ['b']) (r := []) |>.mpr ⟨rfl, rfl⟩)
    · exact .string (quoted_iff (s := ['b']) (r := []) |>.mpr ⟨rfl, rfl⟩)
    · exact .string (quoted_iff (s := ['c']) (r := []) |>.mpr ⟨rfl, rfl⟩)
  kind := rfl
  value := rfl
  tailBlanks := nofun

/-- The key is found where it is written, past the text that is spelled the same. -/
theorem keyPositionAt_isOwnPlace_greeting :
    readJsonObject greetingTree (.ofString "/en.localized_text") = .ok greetingMembers ∧
      "b" ∈ Members.keys greetingMembers ∧
      readText greetingTree (.ofString "/en.localized_text") = .ok (some greeting) ∧
      keyPositionAt greetingTree "/en.localized_text" "b" =
        some (placeBehind isLineBoundary (greeting.take 11)) := by
  have hread : readJsonObject greetingTree (.ofString "/en.localized_text") =
      .ok greetingMembers := by
    rfl
  have hkey : "b" ∈ Members.keys greetingMembers := by decide
  have htext : readText greetingTree (.ofString "/en.localized_text") = .ok (some greeting) := by
    decide +kernel
  refine ⟨hread, hkey, htext, ?_⟩
  obtain ⟨text, htext', -, hlayout⟩ := keyPositionAt_isOwnPlace hread hkey
  obtain rfl : greeting = text := Option.some.inj (Except.ok.inj (htext.symm.trans htext'))
  obtain ⟨-, -, -, hplace⟩ := hlayout greetingLayout
  have hkeys : greetingLayout.keys =
      [⟨1, 1, "\"a\"".toList, "a"⟩, ⟨11, 1, "\"b\"".toList, "b"⟩] := rfl
  have hcolon : ColonAfter isLineBoundary "b" greeting 11 := by decide +kernel
  rw [hkeys] at hplace
  refine (hplace (by decide) (by decide) ⟨11, 1, "\"b\"".toList, "b"⟩ (by simp) rfl hcolon).mpr ?_
  -- the key before it does not end in the key
  intro k hk i hends _
  rcases List.mem_cons.mp hk with rfl | hk
  · exact absurd hends.suffix (by decide)
  · obtain rfl := List.mem_singleton.mp hk
    exact Nat.le_of_eq (Nat.add_right_cancel hends.stop).symm

/-- A key with escaped quotes is in the object and is not found. -/
theorem not_forall_keyPositionAt : ¬ ∀ (t : Tree) (path key : String) (members : Members),
    readJsonObject t (.ofString path) = .ok members → key ∈ members.keys →
      ∃ p, keyPositionAt t path key = some p := by
  intro h
  obtain ⟨p, hp⟩ := h greetingTree "/de.localized_text" "say \"b\"" [("say \"b\"", .str "c")]
    rfl (by decide)
  have hnone : keyPositionAt greetingTree "/de.localized_text" "say \"b\"" = none := by
    decide +kernel
  cases hnone.symm.trans hp

end Files
end ModAtlas.Workspace
