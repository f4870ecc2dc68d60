import ModAtlas.Proofs.Document.Grammar
import ModAtlas.Proofs.Document.Spelling
import ModAtlas.Proofs.Json.Newlines

/-!
# Strict JSON texts are forms

What is read strictly is a form with nothing but blanks between its tokens, and the value that is
read is that of the form with repeated keys merged. Unifying the newlines of such a text changes
its blanks and nothing else, so that both texts are laid out alike.
-/

namespace ModAtlas.Document

/-! ## Blanks before parts -/

/-- Parts with more text before the first of them. -/
def Parts.indented (g : List Char) : Parts → Parts
  | .last before part after => .last (g ++ before) part after
  | .next before part after rest => .next (g ++ before) part after rest

section Indented
variable (g : List Char) (parts : Parts)

theorem Parts.text_indented : (parts.indented g).text = g ++ parts.text := by
  cases parts <;> simp [Parts.indented, Parts.text]

theorem Parts.values_indented : (parts.indented g).values = parts.values := by
  cases parts <;> rfl

theorem Parts.members_indented : (parts.indented g).members = parts.members := by
  cases parts <;> rfl

end Indented

theorem Parts.Valid.indented {token : List Char → Scalar → Prop} {properties : Bool} {g : List Char}
    {parts : Parts} (h : parts.Valid Blanks token properties) (hg : Blanks g) :
    (parts.indented g).Valid Blanks token properties := by
  cases parts with
  | last before part after =>
      obtain ⟨hbefore, hrest⟩ := h
      exact ⟨List.forall_mem_append.mpr ⟨hg, hbefore⟩, hrest⟩
  | next before part after rest =>
      obtain ⟨⟨hbefore, hpart⟩, hrest⟩ := h
      exact ⟨⟨List.forall_mem_append.mpr ⟨hg, hbefore⟩, hpart⟩, hrest⟩

end ModAtlas.Document

namespace ModAtlas.Json.Strict
open ModAtlas.Document ModAtlas.Text

/-- The tokens of strict JSON and the values that they stand for. -/
inductive StrictToken (number? : Numeral → Option Number) : List Char → Scalar → Prop
  | word {text : List Char} {value : Scalar} (listed : (text, value) ∈ words) :
      StrictToken number? text value
  | string {body : List Char} {s : String} (quoted : Quoted body s.toList) :
      StrictToken number? ('"' :: (body ++ ['"'])) (.string s)
  | number {n : Numeral} {v : Number} (written : n.WellWritten isAsciiDigit)
      (value : number? n = some v) : StrictToken number? n.spelling (.number v)

/-- A form is one of strict JSON. -/
abbrev ValidForm (number? : Numeral → Option Number) (f : Form) : Prop :=
  f.Valid Blanks (StrictToken number?)

/-- Parts are parts of strict JSON. -/
abbrev ValidParts (number? : Numeral → Option Number) (properties : Bool) (parts : Parts) : Prop :=
  parts.Valid Blanks (StrictToken number?) properties

/-- A text begins with blanks and a form, which spells a value. -/
structure FormAhead (number? : Numeral → Option Number) (text lead : List Char) (f : Form)
    (v : Value) (rest : List Char) : Prop where
  text : text = lead ++ (f.text ++ rest)
  lead : Blanks lead
  form : ValidForm number? f
  kind : f.isProperty = false
  value : f.value.merged = v

/-- What a reader reads are forms. -/
def YieldsForms (number? : Numeral → Option Number) (value : Reader Value) : Prop :=
  ∀ {text rest : List Char} {v : Value}, value text = some (v, rest) →
    ∃ lead f, FormAhead number? text lead f v rest

section Sound
variable {number? : Numeral → Option Number} {text rest : List Char} {fuel : Nat}

theorem exists_blanks_skip (text : List Char) : ∃ g, Blanks g ∧ text = g ++ skip text :=
  ⟨text.takeWhile isBlank, List.all_eq_true.mp List.all_takeWhile,
    List.takeWhile_append_dropWhile.symm⟩

theorem expect_eq_some {c : Char} (h : expect c text = some rest) :
    ∃ g, Blanks g ∧ text = g ++ c :: rest := by
  obtain ⟨g, hg, htext⟩ := exists_blanks_skip text
  unfold expect at h
  split at h
  · rename_i d u hskip
    split at h
    · rename_i hd
      cases h
      exact ⟨g, hg, by rw [← hd, ← hskip, ← htext]⟩
    · cases h
  · cases h

theorem body_eq_some {s : String} (h : body text = some (s, rest)) :
    ∃ raw, Quoted raw s.toList ∧ text = raw ++ '"' :: rest := by
  unfold body at h
  split at h
  · cases h
  · rename_i raw r hclosing
    obtain ⟨x, hdecode, hx⟩ := Option.map_eq_some_iff.mp h
    cases hx
    obtain rfl := closing?_eq_some hclosing
    exact ⟨raw, quoted_iff.mpr ⟨hclosing, hdecode⟩, rfl⟩

theorem scalar_eq_some {v : Value} (h : scalar number? text = some (v, rest)) :
    ∃ token s, StrictToken number? token s ∧ text = token ++ rest ∧ s.toValue = v := by
  unfold scalar at h
  split at h
  · obtain ⟨⟨s, r⟩, hbody, hp⟩ := Option.map_eq_some_iff.mp h
    cases hp
    obtain ⟨raw, hquoted, rfl⟩ := body_eq_some hbody
    exact ⟨_, _, .string hquoted, by simp, rfl⟩
  · cases h
    exact ⟨['t', 'r', 'u', 'e'], .bool true, .word (by decide), rfl, rfl⟩
  · cases h
    exact ⟨['f', 'a', 'l', 's', 'e'], .bool false, .word (by decide), rfl, rfl⟩
  · cases h
    exact ⟨['n', 'u', 'l', 'l'], .null, .word (by decide), rfl, rfl⟩
  · split at h
    · cases h
    · rename_i numeral r hscan
      obtain ⟨n, hnumber, hp⟩ := Option.map_eq_some_iff.mp h
      cases hp
      obtain ⟨written, rfl⟩ := Numeral.scan?_eq_some hscan
      exact ⟨_, _, .number written hnumber, rfl, rfl⟩

/-- Items are parts of an array. -/
theorem items_eq_some {value : Reader Value} (hvalue : YieldsForms number? value)
    {vs : List Value} (h : items value fuel text = some (vs, rest)) :
    ∃ parts : Parts, text = parts.text ++ ']' :: rest ∧ ValidParts number? false parts ∧
      Value.mergedItems parts.values = vs := by
  induction fuel generalizing text vs with
  | zero => cases h
  | succ fuel ih =>
      obtain ⟨⟨v, u⟩, hv, h⟩ := Option.bind_eq_some_iff.mp h
      obtain ⟨lead, f, hf⟩ := hvalue hv
      obtain ⟨after, hafter, hu⟩ := exists_blanks_skip u
      dsimp only at h
      split at h
      · rename_i r hskip
        obtain ⟨⟨ws, r'⟩, hrest, hp⟩ := Option.bind_eq_some_iff.mp h
        cases hp
        obtain ⟨parts, rfl, hparts, rfl⟩ := ih hrest
        refine ⟨.next lead f after parts, ?_, ⟨⟨hf.lead, hf.form, hafter, hf.kind⟩, hparts⟩, ?_⟩
        · rw [hf.text, hu, hskip]
          simp [Parts.text]
        · rw [Parts.values, Value.mergedItems, hf.value]
      · rename_i r hskip
        cases h
        refine ⟨.last lead f after, ?_, ⟨hf.lead, hf.form, hafter, hf.kind⟩, ?_⟩
        · rw [hf.text, hu, hskip]
          simp [Parts.text]
        · rw [Parts.values, Value.mergedItems, hf.value]
          rfl
      · cases h

/-- Members are parts of an object. -/
theorem members_eq_some {value : Reader Value} (hvalue : YieldsForms number? value)
    {pairs : Members} (h : members value fuel text = some (pairs, rest)) :
    ∃ parts : Parts, text = parts.text ++ '\x7d' :: rest ∧ ValidParts number? true parts ∧
      Value.mergedMembers parts.members = pairs := by
  induction fuel generalizing text pairs with
  | zero => cases h
  | succ fuel ih =>
      obtain ⟨t₁, hquote, h₁⟩ := Option.bind_eq_some_iff.mp h
      obtain ⟨⟨key, t₂⟩, hkey, h₂⟩ := Option.bind_eq_some_iff.mp h₁
      obtain ⟨t₃, hcolon, h₃⟩ := Option.bind_eq_some_iff.mp h₂
      obtain ⟨⟨v, u⟩, hv, hnext⟩ := Option.bind_eq_some_iff.mp h₃
      obtain ⟨before, hbefore, rfl⟩ := expect_eq_some hquote
      obtain ⟨raw, hquoted, rfl⟩ := body_eq_some hkey
      obtain ⟨left, hleft, rfl⟩ := expect_eq_some hcolon
      obtain ⟨right, f, hf⟩ := hvalue hv
      obtain ⟨after, hafter, hu⟩ := exists_blanks_skip u
      let part : Form := .property ('"' :: (raw ++ ['"'])) key left right f
      have hpart : ValidForm number? part :=
        ⟨.string hquoted, hleft, hf.lead, hf.kind, hf.form⟩
      dsimp only at hnext
      split at hnext
      · rename_i r hskip
        obtain ⟨⟨more, r'⟩, hrest, hp⟩ := Option.bind_eq_some_iff.mp hnext
        cases hp
        obtain ⟨parts, rfl, hparts, rfl⟩ := ih hrest
        refine ⟨.next before part after parts, ?_, ⟨⟨hbefore, hpart, hafter, rfl⟩, hparts⟩, ?_⟩
        · rw [hf.text, hu, hskip]
          simp [Parts.text, Form.text, part]
        · rw [Parts.members, Value.mergedMembers, Form.value, hf.value]
          rfl
      · rename_i r hskip
        cases hnext
        refine ⟨.last before part after, ?_, ⟨hbefore, hpart, hafter, rfl⟩, ?_⟩
        · rw [hf.text, hu, hskip]
          simp [Parts.text, Form.text, part]
        · rw [Parts.members, Value.mergedMembers, Form.value, hf.value]
          rfl
      · cases hnext

/-- What is read strictly is a form. -/
theorem value_yieldsForms (number? : Numeral → Option Number) (budget : Nat) :
    YieldsForms number? (value number? budget) := by
  induction budget using Nat.strongRecOn with
  | ind budget ih =>
      intro text rest v h
      obtain ⟨lead, hlead, htext⟩ := exists_blanks_skip text
      unfold value at h
      split at h
      · -- an array
        rename_i r hskip
        obtain ⟨inner, hinner, hr⟩ := exists_blanks_skip r
        split at h
        · cases h
        · rename_i budget
          split at h
          · rename_i r' hclose
            cases h
            refine ⟨lead, .emptyArray inner, ?_, hlead, hinner, rfl, rfl⟩
            rw [htext, hskip, hr, hclose]
            simp [Form.text]
          · obtain ⟨⟨vs, r'⟩, hitems, hp⟩ := Option.map_eq_some_iff.mp h
            cases hp
            obtain ⟨parts, hparts, hvalid, rfl⟩ :=
              items_eq_some (ih budget (Nat.lt_succ_self _)) hitems
            refine ⟨lead, .array (parts.indented inner), ?_, hlead, hvalid.indented hinner, rfl, ?_⟩
            · rw [htext, hskip, hr, hparts, Form.text, Parts.text_indented]
              simp
            · rw [Form.value, Value.merged, Parts.values_indented]
      · -- an object
        rename_i r hskip
        obtain ⟨inner, hinner, hr⟩ := exists_blanks_skip r
        split at h
        · cases h
        · rename_i budget
          split at h
          · rename_i r' hclose
            cases h
            refine ⟨lead, .emptyObject inner, ?_, hlead, hinner, rfl, rfl⟩
            rw [htext, hskip, hr, hclose]
            simp [Form.text]
          · obtain ⟨⟨pairs, r'⟩, hmembers, hp⟩ := Option.map_eq_some_iff.mp h
            cases hp
            obtain ⟨parts, hparts, hvalid, rfl⟩ :=
              members_eq_some (ih budget (Nat.lt_succ_self _)) hmembers
            refine ⟨lead, .object (parts.indented inner), ?_, hlead, hvalid.indented hinner, rfl,
              ?_⟩
            · rw [htext, hskip, hr, hparts, Form.text, Parts.text_indented]
              simp
            · rw [Form.value, Value.merged, Parts.members_indented, Members.ofList_eq_merge]
      · obtain ⟨token, s, htoken, hsplit, rfl⟩ := scalar_eq_some h
        refine ⟨lead, .scalar token s, ?_, hlead, htoken, rfl, s.merged_toValue⟩
        rw [htext, hsplit]
        rfl

end Sound

/-! ## Layouts -/

/-- How a value is written in a text of strict JSON: as a form with blanks around it. -/
structure Layout (number? : Numeral → Option Number) (text : List Char) (v : Value) where
  lead : List Char
  form : Form
  tail : List Char
  text_eq : text = lead ++ (form.text ++ tail)
  leadBlanks : Blanks lead
  valid : ValidForm number? form
  kind : form.isProperty = false
  value : form.value.merged = v
  tailBlanks : Blanks tail

section Layouts
variable {number? : Numeral → Option Number} {text : List Char} {v : Value}

/-- A text that holds a value is laid out as one. -/
theorem exists_layout (h : readWith number? text = some v) : Nonempty (Layout number? text v) := by
  obtain ⟨⟨w, rest⟩, hvalue, hwhole⟩ := Option.bind_eq_some_iff.mp h
  dsimp only at hwhole
  split at hwhole
  · rename_i hempty
    cases hwhole
    obtain ⟨lead, f, hf⟩ := value_yieldsForms number? nestingLimit hvalue
    obtain ⟨tail, htail, hrest⟩ := exists_blanks_skip rest
    rw [List.isEmpty_iff.mp hempty, List.append_nil] at hrest
    exact ⟨⟨lead, f, rest, hf.text, hf.lead, hf.form, hf.kind, hf.value, hrest ▸ htail⟩⟩
  · cases hwhole

end Layouts

/-! ## Unified newlines -/

section Newlines
variable {number? : Numeral → Option Number} {t t' u u' g : List Char} {v : Scalar}

theorem notMem_spelling {n : Numeral} (h : n.WellWritten isAsciiDigit) {c : Char}
    (hsign : c ∉ Numeral.signs) (hdigit : isAsciiDigit c = false) : c ∉ n.spelling := by
  intro hc
  rcases h.mem_spelling hc with hmem | hmem | hmem
  · exact hsign hmem
  · have hascii : isAsciiDigit c = true := by simpa [isAsciiDigit] using hmem
    exact Bool.false_ne_true (hdigit.symm.trans hascii)
  · exact Bool.false_ne_true (hdigit.symm.trans hmem)

/-- A token is on one line. -/
theorem StrictToken.notMem_newline (h : StrictToken number? t v) {c : Char}
    (hc : c = '\r' ∨ c = '\n') : c ∉ t := by
  cases h with
  | word listed =>
      rcases cases_of_mem_words listed with ⟨rfl, -⟩ | ⟨rfl, -⟩ | ⟨rfl, -⟩ <;>
        rcases hc with rfl | rfl <;> decide
  | string quoted =>
      have hquote : c ≠ '"' := by rcases hc with rfl | rfl <;> decide
      simp [hquote, quoted.notMem_newline hc]
  | number written =>
      rcases hc with rfl | rfl
      · exact notMem_spelling written (by decide) (by decide)
      · exact notMem_spelling written (by decide) (by decide)

/-- A text that begins inside a line is rewritten with unified newlines, whatever follows it. -/
structure Unifies (t t' : List Char) : Prop where
  starts : ∃ c u, t = c :: u ∧ c ≠ '\n'
  rewrites : Rewrites unifyNewlines t t'

theorem Unifies.before (h : Unifies t t') (hu : Rewrites unifyNewlines u u') :
    Unifies (t ++ u) (t' ++ u') := by
  obtain ⟨c, s, rfl, hc⟩ := h.starts
  exact ⟨⟨c, s ++ u, rfl, hc⟩, h.rewrites.append hu⟩

/-- A gap does not share a line end with what follows it. -/
theorem Unifies.behind (h : Unifies t t') (g : List Char) :
    Rewrites unifyNewlines (g ++ t) (unifyNewlines g ++ t') := by
  obtain ⟨c, s, rfl, hc⟩ := h.starts
  intro r
  have hcut : CleanCut g (c :: s ++ r) := .of_head (by simpa using hc)
  rw [List.append_assoc, unifyNewlines_append hcut, h.rewrites, List.append_assoc]

theorem unifies_mark {c : Char} (hc : c ∈ marks) : Unifies [c] [c] := by
  have hne : c ≠ '\r' ∧ c ≠ '\n' := by
    constructor <;>
    · rintro rfl
      exact absurd hc (by decide)
  refine ⟨⟨c, [], rfl, hne.2⟩, .kept fun d hd _ => ?_⟩
  obtain rfl := List.mem_singleton.mp hd
  exact unifyNewlines_cons hne.1

theorem StrictToken.unifies (h : StrictToken number? t v) : Unifies t t := by
  obtain ⟨c, u, rfl⟩ : ∃ c u, t = c :: u := by
    cases h with
    | word listed => rcases cases_of_mem_words listed with ⟨rfl, -⟩ | ⟨rfl, -⟩ | ⟨rfl, -⟩ <;> simp
    | string _ => exact ⟨_, _, rfl⟩
    | number written =>
        obtain ⟨c, u, hcu, -⟩ := head_spelling written
        exact ⟨c, u, hcu⟩
  refine ⟨⟨c, u, rfl, ?_⟩, .kept fun d hd _ => unifyNewlines_cons fun heq => ?_⟩
  · exact fun heq => h.notMem_newline (.inr rfl) (heq ▸ List.mem_cons_self)
  · exact h.notMem_newline (.inl heq) hd

mutual

/-- Unifying newlines rewrites the gaps of a form and nothing else. -/
theorem unifies_form : ∀ {f : Form}, ValidForm number? f →
    Unifies f.text (f.rewritten unifyNewlines id).text
  | .scalar _ _, h => StrictToken.unifies h
  | .emptyArray g, _ =>
    (unifies_mark (by decide)).before ((unifies_mark (c := ']') (by decide)).behind g)
  | .emptyObject g, _ =>
    (unifies_mark (by decide)).before ((unifies_mark (c := '\x7d') (by decide)).behind g)
  | .array _, h => (unifies_mark (by decide)).before (rewrites_parts h (unifies_mark (by decide)))
  | .object _, h => (unifies_mark (by decide)).before (rewrites_parts h (unifies_mark (by decide)))
  | .property _ _ left right _, ⟨hkey, _, _, _, hvalue⟩ =>
    (StrictToken.unifies hkey).before
      (((unifies_mark (c := ':') (by decide)).before ((unifies_form hvalue).behind right)).behind
        left)

/-- What follows parts begins inside a line, so that their last gap ends before it. -/
theorem rewrites_parts {properties : Bool} {t t' : List Char} :
    ∀ {parts : Parts}, ValidParts number? properties parts → Unifies t t' →
      Rewrites unifyNewlines (parts.text ++ t) ((parts.rewritten unifyNewlines id).text ++ t')
  | .last before _ after, ⟨_, hpart, _, _⟩, h => by
      have hall := ((unifies_form hpart).before (h.behind after)).behind before
      simpa only [Parts.text, Parts.rewritten, List.append_assoc] using hall
  | .next before _ after _, ⟨⟨_, hpart, _, _⟩, hrest⟩, h => by
      have hcomma := (unifies_mark (c := ',') (by decide)).before (rewrites_parts hrest h)
      have hall := ((unifies_form hpart).before (hcomma.behind after)).behind before
      simpa only [Parts.text, Parts.rewritten, List.append_assoc, List.cons_append,
        List.nil_append] using hall

end

theorem blanks_unifyNewlines (h : Blanks g) : Blanks (unifyNewlines g) := by
  have hfeed : isBlank '\n' = true := by decide
  induction g using newlineInduction with
  | nil => exact h
  | crlf rest ih =>
      have hrest : Blanks rest := fun c hc => h c (by simp [hc])
      exact List.forall_mem_cons.mpr ⟨hfeed, ih hrest⟩
  | step c rest hc ih =>
      obtain ⟨hblank, hrest⟩ := List.forall_mem_cons.mp h
      rw [unifyNewlines_step hc]
      refine List.forall_mem_cons.mpr ⟨?_, ih hrest⟩
      split
      · exact hfeed
      · exact hblank

/-- A text with unified newlines is laid out in the same way. -/
def Layout.unified {text : List Char} {v : Value} (l : Layout number? text v) :
    Layout number? (unifyNewlines text) v where
  lead := unifyNewlines l.lead
  form := l.form.rewritten unifyNewlines id
  tail := unifyNewlines l.tail
  text_eq := by
    have hform := (unifies_form l.valid).behind l.lead
    calc unifyNewlines text
        = unifyNewlines (l.lead ++ l.form.text ++ l.tail) := by
          rw [List.append_assoc, ← l.text_eq]
      _ = _ := by rw [hform l.tail, List.append_assoc]
  leadBlanks := blanks_unifyNewlines l.leadBlanks
  valid := l.valid.rewritten (fun _ => blanks_unifyNewlines) fun _ _ h => h
  kind := (l.form.isProperty_rewritten _ _).trans l.kind
  value := by rw [Form.value_rewritten, l.value]
  tailBlanks := blanks_unifyNewlines l.tailBlanks

end Newlines
end ModAtlas.Json.Strict
