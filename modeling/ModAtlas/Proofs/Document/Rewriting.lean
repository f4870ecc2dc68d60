import ModAtlas.Proofs.Document.Form

/-!
# Rewriting the tokens and the gaps of a form

A form stays valid when its tokens and its gaps are replaced by valid ones. A function of texts
that replaces each token and each gap where it stands, and keeps the marks between them, replaces
them in the text of a whole form.
-/

namespace ModAtlas.Document

section Rewriting
variable (onGap onToken : List Char → List Char)

mutual

/-- A form with its gaps and its tokens rewritten. -/
def Form.rewritten : Form → Form
  | .scalar text value => .scalar (onToken text) value
  | .emptyArray inner => .emptyArray (onGap inner)
  | .array items => .array items.rewritten
  | .emptyObject inner => .emptyObject (onGap inner)
  | .object members => .object members.rewritten
  | .property key name left right value =>
    .property (onToken key) name (onGap left) (onGap right) value.rewritten

/-- Parts with their gaps and their tokens rewritten. -/
def Parts.rewritten : Parts → Parts
  | .last before part after => .last (onGap before) part.rewritten (onGap after)
  | .next before part after rest =>
    .next (onGap before) part.rewritten (onGap after) rest.rewritten

end

theorem Form.isProperty_rewritten (f : Form) :
    (f.rewritten onGap onToken).isProperty = f.isProperty := by
  cases f <;> rfl

end Rewriting

mutual

theorem Form.rewritten_id : ∀ f : Form, f.rewritten id id = f
  | .scalar _ _ => rfl
  | .emptyArray _ => rfl
  | .emptyObject _ => rfl
  | .array items => by rw [Form.rewritten, Parts.rewritten_id items]
  | .object members => by rw [Form.rewritten, Parts.rewritten_id members]
  | .property _ _ _ _ value => by simp only [Form.rewritten, Form.rewritten_id value, id]

theorem Parts.rewritten_id : ∀ parts : Parts, parts.rewritten id id = parts
  | .last _ part _ => by simp only [Parts.rewritten, Form.rewritten_id part, id]
  | .next _ part _ rest => by
      simp only [Parts.rewritten, Form.rewritten_id part, Parts.rewritten_id rest, id]

end

/-! ## Validity -/

section Valid
variable {onGap onToken : List Char → List Char} {gap gap' : List Char → Prop}
  {token token' : List Char → Scalar → Prop}

mutual

theorem Form.Valid.rewritten (hgap : ∀ g, gap g → gap' (onGap g))
    (htoken : ∀ t v, token t v → token' (onToken t) v) :
    ∀ {f : Form}, f.Valid gap token → (f.rewritten onGap onToken).Valid gap' token'
  | .scalar t v, h => htoken t v h
  | .emptyArray g, h => hgap g h
  | .emptyObject g, h => hgap g h
  | .array _, h => Parts.Valid.rewritten hgap htoken h
  | .object _, h => Parts.Valid.rewritten hgap htoken h
  | .property key name left right value, ⟨hkey, hleft, hright, hkind, hvalue⟩ =>
    ⟨htoken key (.string name) hkey, hgap left hleft, hgap right hright,
      (value.isProperty_rewritten _ _).trans hkind, hvalue.rewritten hgap htoken⟩

theorem Parts.Valid.rewritten (hgap : ∀ g, gap g → gap' (onGap g))
    (htoken : ∀ t v, token t v → token' (onToken t) v) {properties : Bool} :
    ∀ {parts : Parts}, parts.Valid gap token properties →
      (parts.rewritten onGap onToken).Valid gap' token' properties
  | .last before part after, ⟨hbefore, hpart, hafter, hkind⟩ =>
    ⟨hgap before hbefore, hpart.rewritten hgap htoken, hgap after hafter,
      (part.isProperty_rewritten _ _).trans hkind⟩
  | .next before part after _, ⟨⟨hbefore, hpart, hafter, hkind⟩, hrest⟩ =>
    ⟨⟨hgap before hbefore, hpart.rewritten hgap htoken, hgap after hafter,
      (part.isProperty_rewritten _ _).trans hkind⟩, Parts.Valid.rewritten hgap htoken hrest⟩

end

/-- A form stays valid when more gaps and tokens are allowed. -/
theorem Form.Valid.mono {f : Form} (h : f.Valid gap token) (hgap : ∀ g, gap g → gap' g)
    (htoken : ∀ t v, token t v → token' t v) : f.Valid gap' token' := by
  rw [← f.rewritten_id]
  exact h.rewritten hgap htoken

end Valid

/-! ## Texts -/

/-- A function of texts rewrites what stands before any other text. -/
def Rewrites (scan : List Char → List Char) (t t' : List Char) : Prop :=
  ∀ r, scan (t ++ r) = t' ++ scan r

theorem Rewrites.append {scan : List Char → List Char} {t t' u u' : List Char}
    (ht : Rewrites scan t t') (hu : Rewrites scan u u') : Rewrites scan (t ++ u) (t' ++ u') := by
  intro r
  rw [List.append_assoc, ht, hu, List.append_assoc]

/-- A text of characters that a scan keeps is kept. -/
theorem Rewrites.kept {scan : List Char → List Char} {t : List Char}
    (ht : ∀ c ∈ t, ∀ r, scan (c :: r) = c :: scan r) : Rewrites scan t t := by
  intro r
  induction t with
  | nil => rfl
  | cons c t ih =>
      rw [List.cons_append, ht c List.mem_cons_self,
        ih fun d hd => ht d (List.mem_cons_of_mem _ hd), List.cons_append]

theorem Rewrites.self {scan : List Char → List Char} {t t' : List Char}
    (h : Rewrites scan t t') (hnil : scan [] = []) : scan t = t' := by
  simpa [hnil] using h []

/-- The marks between the tokens and the gaps of a form. -/
def marks : List Char := ['[', ']', '\x7b', '\x7d', ',', ':']

section Scanned
variable {scan onGap onToken : List Char → List Char} {gap : List Char → Prop}
  {token : List Char → Scalar → Prop}

mutual

/-- Where gaps and tokens are rewritten and marks are kept, forms are rewritten. -/
theorem Form.rewrites_text (hgap : ∀ g, gap g → Rewrites scan g (onGap g))
    (htoken : ∀ t v, token t v → Rewrites scan t (onToken t))
    (hmark : ∀ c ∈ marks, Rewrites scan [c] [c]) :
    ∀ {f : Form}, f.Valid gap token → Rewrites scan f.text (f.rewritten onGap onToken).text
  | .scalar t v, h => htoken t v h
  | .emptyArray g, h =>
    (hmark '[' (by decide)).append ((hgap g h).append (hmark ']' (by decide)))
  | .emptyObject g, h =>
    (hmark '\x7b' (by decide)).append ((hgap g h).append (hmark '\x7d' (by decide)))
  | .array _, h =>
    (hmark '[' (by decide)).append
      ((Parts.rewrites_text hgap htoken hmark h).append (hmark ']' (by decide)))
  | .object _, h =>
    (hmark '\x7b' (by decide)).append
      ((Parts.rewrites_text hgap htoken hmark h).append (hmark '\x7d' (by decide)))
  | .property key name left right _, ⟨hkey, hleft, hright, _, hvalue⟩ =>
    (htoken key (.string name) hkey).append ((hgap left hleft).append
      ((hmark ':' (by decide)).append
        ((hgap right hright).append (Form.rewrites_text hgap htoken hmark hvalue))))

theorem Parts.rewrites_text (hgap : ∀ g, gap g → Rewrites scan g (onGap g))
    (htoken : ∀ t v, token t v → Rewrites scan t (onToken t))
    (hmark : ∀ c ∈ marks, Rewrites scan [c] [c]) {properties : Bool} :
    ∀ {parts : Parts}, parts.Valid gap token properties →
      Rewrites scan parts.text (parts.rewritten onGap onToken).text
  | .last before _ after, ⟨hbefore, hpart, hafter, _⟩ =>
    (hgap before hbefore).append
      ((Form.rewrites_text hgap htoken hmark hpart).append (hgap after hafter))
  | .next before _ after _, ⟨⟨hbefore, hpart, hafter, _⟩, hrest⟩ =>
    (hgap before hbefore).append ((Form.rewrites_text hgap htoken hmark hpart).append
      ((hgap after hafter).append
        ((hmark ',' (by decide)).append (Parts.rewrites_text hgap htoken hmark hrest))))

end

end Scanned

end ModAtlas.Document
