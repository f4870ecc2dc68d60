import ModAtlas.Proofs.Schema.Enumeration
import ModAtlas.Proofs.Text.Piece
import ModAtlas.Schema.Scope

/-!
# What the search for a scope finds

The search takes one root after the other, and adds the target of a reference under it as a root
when it is below none that was found before. So the roots are a trail of references, on which none
is below an earlier one; as the targets stand in the schema, the trail cannot go on for ever,
whatever circles the references make. When nothing is pending any more, everything that is
referred to under a root is below one. The search breaks off only where a root leads to an array
with a token that looks like an index and is none.
-/

namespace ModAtlas.Schema
open ModAtlas.Json ModAtlas.Text

/-! ## Pointers -/

namespace Pointer
variable {schema : Value} {e : Error}

/-- A pointer is a root or below it: its tokens begin with those of the root. Everything is below
the empty root. -/
def Below (pointer root : String) : Prop :=
  root = "" ∨ splitOn '/' root.toList <+: splitOn '/' pointer.toList

theorem within_iff {pointer root : String} : within pointer root = true ↔ Below pointer root := by
  simp [within, Below, splitOn_prefix_iff, or_assoc, eq_comm (a := root.toList), String.toList_inj]

theorem any_within_iff {roots : List String} {pointer : String} :
    roots.any (within pointer) = true ↔ ∃ r ∈ roots, Below pointer r := by
  simp [List.any_eq_true, within_iff]

theorem Below.refl (pointer : String) : Below pointer pointer := .inr (List.prefix_refl _)

/-- A pointer breaks off: it leads to an array, and the next token looks like an index and is no
numeral. -/
def Breaks (schema : Value) (pointer : String) : Prop :=
  pointer ≠ "" ∧ ∃ before token after items, tokens pointer = before ++ token :: after ∧
    follow before schema = .ok (some (.arr items)) ∧ isIndex token = true ∧
    Number.readInt? token.toList = none

theorem enter_eq_error_iff {token : String} {v : Value} : enter token v = .error e ↔
    ∃ items, v = .arr items ∧ isIndex token = true ∧ Number.readInt? token.toList = none := by
  obtain rfl : e = .badIndex := by cases e; rfl
  cases v with
  | arr items =>
      rw [enter]
      by_cases hindex : isIndex token = true
      · cases hread : Number.readInt? token.toList <;> simp [hindex]
      · simp [hindex]
  | _ => simp [enter]

theorem follow_eq_error_iff {ts : List String} {v : Value} : follow ts v = .error e ↔
    ∃ before token after items, ts = before ++ token :: after ∧
      follow before v = .ok (some (.arr items)) ∧ isIndex token = true ∧
      Number.readInt? token.toList = none := by
  induction ts generalizing v with
  | nil => simp [follow]
  | cons t ts ih =>
      constructor
      · intro h
        rw [follow] at h
        cases henter : enter t v with
        | error e' =>
            obtain ⟨items, rfl, hindex, hread⟩ := enter_eq_error_iff.mp henter
            exact ⟨[], t, ts, items, rfl, rfl, hindex, hread⟩
        | ok found =>
            cases found with
            | none => simp [henter, bind, Except.bind] at h
            | some w =>
                obtain ⟨before, token, after, items, rfl, hfollow, hbad⟩ :=
                  ih.mp (by simpa [henter, bind, Except.bind] using h)
                refine ⟨t :: before, token, after, items, rfl, ?_, hbad⟩
                simpa [follow, henter, bind, Except.bind] using hfollow
      · rintro ⟨before, token, after, items, hsplit, hfollow, hbad⟩
        rw [follow]
        cases before with
        | nil =>
            obtain ⟨rfl, rfl⟩ := List.cons.inj hsplit
            obtain rfl : v = .arr items := by simpa [follow] using hfollow
            rw [enter_eq_error_iff (e := e).mpr ⟨items, rfl, hbad⟩]
            rfl
        | cons t' before =>
            obtain ⟨rfl, rfl⟩ := List.cons.inj hsplit
            rw [follow] at hfollow
            cases henter : enter t v with
            | error e' => simp [henter, bind, Except.bind] at hfollow
            | ok found =>
                cases found with
                | none => simp [henter, bind, Except.bind] at hfollow
                | some w =>
                    exact ih.mpr ⟨before, token, after, items, rfl,
                      by simpa [henter, bind, Except.bind] using hfollow, hbad⟩

theorem resolve_eq_error_iff {pointer : String} :
    resolve schema pointer = .error e ↔ Breaks schema pointer := by
  by_cases h : pointer = ""
  · simp [resolve, Breaks, h]
  · simp [resolve, Breaks, h, follow_eq_error_iff]

end Pointer

/-! ## References -/

/-- The pointer that the local reference of a subschema holds. -/
def Subschema.target? (sub : Subschema) : Option String :=
  (Members.get? sub.members "$ref").bind Pointer.localTarget?

/-- A subschema at or below a root has a local reference to a target. -/
def RefersTo (schema : Value) (root target : String) : Prop :=
  ∃ found sub, Pointer.resolve schema root = .ok (some found) ∧ sub ∈ subschemas root found ∧
    sub.target? = some target

/-- Roots of a scope as they are found one after the other: each of them is the target of a
reference under an earlier one, and below none of the earlier ones. -/
inductive Trail (schema : Value) (pointer : String) : List String → Prop
  | start : Trail schema pointer [pointer]
  | add {roots : List String} {root target : String} (before : Trail schema pointer roots)
      (mem : root ∈ roots) (refers : RefersTo schema root target)
      (new : ∀ r ∈ roots, ¬ Pointer.Below target r) : Trail schema pointer (roots ++ [target])

namespace Trail
variable {schema : Value} {pointer : String} {roots : List String}

theorem head? (h : Trail schema pointer roots) : roots.head? = some pointer := by
  induction h with
  | start => rfl
  | add before mem refers new ih => rw [List.head?_append, ih]; rfl

theorem nodup (h : Trail schema pointer roots) : roots.Nodup := by
  induction h with
  | start => exact List.nodup_singleton _
  | add before mem refers new ih =>
      refine List.nodup_append.mpr ⟨ih, List.nodup_singleton _, ?_⟩
      intro r hr target htarget heq
      obtain rfl := List.mem_singleton.mp htarget
      exact new r hr (heq ▸ .refl _)

/-- Every root but the first was found below an earlier one, and is below none of them. -/
theorem found_of_split (h : Trail schema pointer roots) {before after : List String}
    {root : String} (hsplit : roots = before ++ root :: after) :
    before = [] ∨
      (∃ r ∈ before, RefersTo schema r root) ∧ ∀ r ∈ before, ¬ Pointer.Below root r := by
  induction h generalizing after with
  | start =>
      cases before with
      | nil => exact .inl rfl
      | cons r before => simp at hsplit
  | @add roots r target earlier mem refers new ih =>
      rcases List.eq_nil_or_concat after with rfl | ⟨after, last, rfl⟩
      · obtain ⟨rfl, heq⟩ := List.append_inj' hsplit rfl
        obtain rfl := List.singleton_inj.mp heq
        exact .inr ⟨⟨r, mem, refers⟩, new⟩
      · rw [List.concat_eq_append, ← List.cons_append, ← List.append_assoc] at hsplit
        exact ih (List.append_inj' hsplit rfl).1

end Trail

/-! ## How many roots there are -/

theorem mem_positions_of_sees {p q : String} {v w : Value} (h : Sees p v q w) :
    (q, w) ∈ positions p v := by
  induction h with
  | self => exact self_mem_positions _ _
  | member _ mem _ ih => exact mem_positions_of_mem_parts ih (mem_parts_of_mem mem)
  | item _ own ih => exact mem_positions_of_mem_parts ih (mem_parts_of_getElem? own)

/-- What is referred to is the target of a reference somewhere in the schema. -/
theorem RefersTo.mem_origins {schema : Value} {root target : String}
    (h : RefersTo schema root target) : target ∈ origins schema := by
  obtain ⟨found, sub, hresolve, hsub, htarget⟩ := h
  obtain ⟨ref, hget, hlocal⟩ := Option.bind_eq_some_iff.mp htarget
  obtain ⟨q', hfound⟩ := mem_positions_of_resolve hresolve ""
  have href := mem_positions_of_mem_parts (mem_positions_of_sees (sees_of_mem hsub))
    (mem_parts_of_get? hget)
  obtain ⟨q, hq⟩ := exists_mem_positions href q'
  exact List.mem_cons_of_mem _
    (List.mem_filterMap.mpr ⟨_, positions_trans hfound hq, hlocal⟩)

theorem Trail.subset {schema : Value} {pointer : String} {roots : List String}
    (h : Trail schema pointer roots) : roots ⊆ pointer :: origins schema := by
  induction h with
  | start => simp
  | add before mem refers new ih =>
      exact List.append_subset.mpr
        ⟨ih, List.cons_subset.mpr ⟨List.mem_cons_of_mem _ refers.mem_origins, List.nil_subset _⟩⟩

/-- There are no more roots than values in the schema, and two. -/
theorem Trail.length_le {schema : Value} {pointer : String} {roots : List String}
    (h : Trail schema pointer roots) : roots.length ≤ schema.count + 2 :=
  (h.nodup.subperm h.subset).length_le.trans (Nat.succ_le_succ length_origins_le)

/-! ## Turns of the search -/

namespace ScopeSearch
variable {schema : Value} {pointer root : String} {s s' : ScopeSearch} {sub : Subschema}

theorem visit_eq (s : ScopeSearch) (sub : Subschema) :
    s.visit sub = sub.target?.elim s fun target =>
      if s.roots.any (Pointer.within target) then s
      else ⟨s.roots ++ [target], target :: s.pending⟩ := by
  unfold visit Subschema.target?
  cases Members.get? sub.members "$ref" with
  | none => rfl
  | some ref =>
      rw [Option.getD_some, Option.bind_some]
      cases Pointer.localTarget? ref <;> rfl

/-- A visit changes nothing unless the subschema refers to something below none of the roots. -/
theorem visit_cases (s : ScopeSearch) (sub : Subschema) :
    (s.visit sub = s ∧ ∀ target, sub.target? = some target →
      ∃ r ∈ s.roots, Pointer.Below target r) ∨
    ∃ target, sub.target? = some target ∧ (∀ r ∈ s.roots, ¬ Pointer.Below target r) ∧
      s.visit sub = ⟨s.roots ++ [target], target :: s.pending⟩ := by
  rw [visit_eq]
  cases sub.target? with
  | none => exact .inl ⟨rfl, nofun⟩
  | some target =>
      by_cases h : s.roots.any (Pointer.within target) = true
      · refine .inl ⟨if_pos h, fun _ htarget => ?_⟩
        cases htarget
        exact Pointer.any_within_iff.mp h
      · refine .inr ⟨target, rfl, fun r hr hbelow => ?_, if_neg h⟩
        exact h (Pointer.any_within_iff.mpr ⟨r, hr, hbelow⟩)

/-- Visiting the subschemas under a root adds roots, which are then pending as well, until all
targets of the subschemas are below one. -/
theorem foldl_visit {subs : List Subschema} (htrail : Trail schema pointer s.roots)
    (hroot : root ∈ s.roots)
    (hrefers : ∀ sub ∈ subs, ∀ target, sub.target? = some target → RefersTo schema root target) :
    ∃ new, subs.foldl visit s = ⟨s.roots ++ new, new.reverse ++ s.pending⟩ ∧
      Trail schema pointer (s.roots ++ new) ∧
      ∀ sub ∈ subs, ∀ target, sub.target? = some target →
        ∃ r ∈ s.roots ++ new, Pointer.Below target r := by
  induction subs generalizing s with
  | nil => exact ⟨[], by simp, by simpa using htrail, nofun⟩
  | cons sub subs ih =>
      have hlater : ∀ x ∈ subs, ∀ target, x.target? = some target → RefersTo schema root target :=
        fun x hx => hrefers x (List.mem_cons_of_mem _ hx)
      rw [List.foldl_cons]
      rcases s.visit_cases sub with ⟨hsame, hcovered⟩ | ⟨target, htarget, hnew, hadded⟩
      · obtain ⟨new, heq, htrail', hcovered'⟩ := ih htrail hroot hlater
        refine ⟨new, by rw [hsame, heq], htrail',
          List.forall_mem_cons.mpr ⟨fun t ht => ?_, hcovered'⟩⟩
        obtain ⟨r, hr, hbelow⟩ := hcovered t ht
        exact ⟨r, List.mem_append_left _ hr, hbelow⟩
      · have hadd := htrail.add hroot (hrefers sub List.mem_cons_self target htarget) hnew
        obtain ⟨new, heq, htrail', hcovered'⟩ :=
          ih (s := ⟨s.roots ++ [target], target :: s.pending⟩) hadd
            (List.mem_append_left _ hroot) hlater
        refine ⟨target :: new, ?_, by simpa using htrail', ?_⟩
        · rw [hadded, heq]
          simp
        · rw [List.append_cons]
          refine List.forall_mem_cons.mpr ⟨fun t ht => ?_, hcovered'⟩
          obtain rfl := Option.some.inj (htarget.symm.trans ht)
          exact ⟨target, by simp, .refl target⟩

/-- The loop over the pending roots comes to an end. -/
inductive Ends (schema : Value) : ScopeSearch → Except Pointer.Error (List String) → Prop
  | done {roots : List String} : Ends schema ⟨roots, []⟩ (.ok roots)
  | broken {roots rest : List String} {root : String} {e : Pointer.Error}
      (resolve : Pointer.resolve schema root = .error e) :
      Ends schema ⟨roots, root :: rest⟩ (.error e)
  | turn {roots rest : List String} {root : String} {found : Option Value}
      {result : Except Pointer.Error (List String)}
      (resolve : Pointer.resolve schema root = .ok found)
      (later : Ends schema
        (((found.map (subschemas root)).getD []).foldl visit ⟨roots, rest⟩) result) :
      Ends schema ⟨roots, root :: rest⟩ result

/-- A root was searched: it can be resolved, and what is referred to under it is below a root. -/
structure Searched (schema : Value) (roots : List String) (root : String) : Prop where
  resolves : ∃ found, Pointer.resolve schema root = .ok found
  covered : ∀ target, RefersTo schema root target → ∃ r ∈ roots, Pointer.Below target r

theorem Searched.mono {roots roots' : List String} (h : Searched schema roots root)
    (hsub : roots ⊆ roots') : Searched schema roots' root := by
  refine ⟨h.resolves, fun target hrefers => ?_⟩
  obtain ⟨r, hr, hbelow⟩ := h.covered target hrefers
  exact ⟨r, hsub hr, hbelow⟩

/-- The roots were found one after the other, and all that are not pending were searched. -/
structure Sound (schema : Value) (pointer : String) (s : ScopeSearch) : Prop where
  trail : Trail schema pointer s.roots
  pending : s.pending ⊆ s.roots
  searched : ∀ r ∈ s.roots, r ∈ s.pending ∨ Searched schema s.roots r

theorem Sound.turn {roots rest : List String} {found : Option Value}
    (h : Sound schema pointer ⟨roots, root :: rest⟩)
    (hresolve : Pointer.resolve schema root = .ok found) :
    ∃ new, ((found.map (subschemas root)).getD []).foldl visit ⟨roots, rest⟩ =
        ⟨roots ++ new, new.reverse ++ rest⟩ ∧
      Sound schema pointer ⟨roots ++ new, new.reverse ++ rest⟩ := by
  have hroot : root ∈ roots := h.pending List.mem_cons_self
  have hrest : rest ⊆ roots := fun r hr => h.pending (List.mem_cons_of_mem _ hr)
  have hrefers (sub : Subschema) (hsub : sub ∈ (found.map (subschemas root)).getD [])
      (target : String) (htarget : sub.target? = some target) : RefersTo schema root target := by
    cases found with
    | none => cases hsub
    | some v => exact ⟨v, sub, hresolve, hsub, htarget⟩
  obtain ⟨new, heq, htrail, hcovered⟩ := foldl_visit (s := ⟨roots, rest⟩) h.trail hroot hrefers
  refine ⟨new, heq, htrail, ?_, fun r hr => ?_⟩
  · exact List.append_subset.mpr ⟨fun r hr => List.mem_append_right _ (List.mem_reverse.mp hr),
      fun r hr => List.mem_append_left _ (hrest hr)⟩
  · rcases List.mem_append.mp hr with hr | hr
    · rcases h.searched r hr with hpending | hsearched
      · rcases List.mem_cons.mp hpending with rfl | hpending
        · refine .inr ⟨⟨found, hresolve⟩, fun target hrefers => ?_⟩
          obtain ⟨v, sub, hv, hsub, htarget⟩ := hrefers
          obtain rfl := Except.ok.inj (hresolve.symm.trans hv)
          exact hcovered sub hsub target htarget
        · exact .inl (List.mem_append_right _ hpending)
      · exact .inr (hsearched.mono (List.subset_append_left _ _))
    · exact .inl (List.mem_append_left _ (List.mem_reverse.mpr hr))

/-- A search that ends well has searched all roots; one that breaks off, does so at a root. -/
theorem Ends.settled {result : Except Pointer.Error (List String)} (h : Ends schema s result)
    (sound : Sound schema pointer s) :
    (∃ roots, result = .ok roots ∧ Trail schema pointer roots ∧
      ∀ r ∈ roots, Searched schema roots r) ∨
    ∃ roots r e, result = .error e ∧ Trail schema pointer roots ∧ r ∈ roots ∧
      Pointer.resolve schema r = .error e := by
  induction h with
  | @done roots =>
      exact .inl ⟨roots, rfl, sound.trail, fun r hr => (sound.searched r hr).resolve_left nofun⟩
  | @broken roots rest root e resolve =>
      exact .inr ⟨roots, root, e, rfl, sound.trail, sound.pending List.mem_cons_self, resolve⟩
  | @turn roots rest root found result resolve later ih =>
      obtain ⟨new, heq, hsound⟩ := sound.turn resolve
      rw [heq] at ih
      exact ih hsound

/-- The fuel is enough: a turn takes one root from what is pending, and there are no more roots
than values. -/
theorem ends_run {fuel : Nat} (sound : Sound schema pointer s)
    (hfuel : s.pending.length + (schema.count + 2) ≤ fuel + s.roots.length) :
    Ends schema s (run schema fuel s) := by
  induction fuel generalizing s with
  | zero =>
      have hlength := sound.trail.length_le
      obtain ⟨roots, pending⟩ := s
      obtain rfl : pending = [] := List.eq_nil_of_length_eq_zero (by dsimp only at *; omega)
      exact .done
  | succ fuel ih =>
      obtain ⟨roots, pending⟩ := s
      cases pending with
      | nil => exact .done
      | cons root rest =>
          rw [run]
          dsimp only
          cases hresolve : Pointer.resolve schema root with
          | error e => exact .broken hresolve
          | ok found =>
              obtain ⟨new, heq, hsound⟩ := sound.turn hresolve
              refine .turn hresolve ?_
              change Ends schema _ (run schema fuel (List.foldl visit ⟨roots, rest⟩ _))
              rw [heq]
              apply ih hsound
              simp only [List.length_append, List.length_reverse, List.length_cons] at hfuel ⊢
              omega

theorem Sound.start (schema : Value) (pointer : String) :
    Sound schema pointer ⟨[pointer], [pointer]⟩ :=
  ⟨.start, List.Subset.refl _, fun _ hr => .inl hr⟩

/-- Two runs of the loop from one place end alike. -/
theorem Ends.unique {result result' : Except Pointer.Error (List String)}
    (h : Ends schema s result) (h' : Ends schema s result') : result = result' := by
  induction h with
  | done =>
      cases h'
      rfl
  | broken resolve =>
      cases h' with
      | broken resolve' => exact congrArg _ (Except.error.inj (resolve.symm.trans resolve'))
      | turn resolve' later' => cases resolve.symm.trans resolve'
  | turn resolve later ih =>
      cases h' with
      | broken resolve' => cases resolve.symm.trans resolve'
      | turn resolve' later' =>
          obtain rfl := Except.ok.inj (resolve.symm.trans resolve')
          exact ih later'

end ScopeSearch

theorem ends_scopeRoots (schema : Value) {pointer : String} (h : pointer ≠ "") :
    ScopeSearch.Ends schema ⟨[pointer], [pointer]⟩ (scopeRoots schema pointer) := by
  rw [scopeRoots, if_neg (by simpa using h)]
  exact ScopeSearch.ends_run (.start schema pointer) (by simp; omega)

/-! ## Scopes -/

/-- The roots of the scope of a pointer: all that is referred to under one of them is below one,
and each of them is needed when it is found. -/
structure IsScope (schema : Value) (pointer : String) (roots : List String) : Prop where
  first : roots.head? = some pointer
  covered : ∀ r ∈ roots, ∀ target, RefersTo schema r target → ∃ q ∈ roots, Pointer.Below target q
  found : ∀ before root after, roots = before ++ root :: after → before ≠ [] →
    (∃ r ∈ before, RefersTo schema r root) ∧ ∀ r ∈ before, ¬ Pointer.Below root r
  nodup : roots.Nodup

/-- A search from a pointer that ends well gives the scope of the pointer. -/
theorem ScopeSearch.Ends.isScope {schema : Value} {pointer : String} {roots : List String}
    (h : Ends schema ⟨[pointer], [pointer]⟩ (.ok roots)) :
    IsScope schema pointer roots ∧ ∀ r ∈ roots, ¬ Pointer.Breaks schema r := by
  rcases h.settled (.start schema pointer) with ⟨roots', heq, htrail, hsearched⟩ | ⟨_, _, _, heq, _⟩
  · obtain rfl := Except.ok.inj heq
    refine ⟨⟨htrail.head?, fun r hr => (hsearched r hr).covered, ?_, htrail.nodup⟩,
      fun r hr hbreaks => ?_⟩
    · intro before root after hsplit hbefore
      exact (htrail.found_of_split hsplit).resolve_left hbefore
    · obtain ⟨found, hresolve⟩ := (hsearched r hr).resolves
      rw [Pointer.resolve_eq_error_iff (e := .badIndex).mpr hbreaks] at hresolve
      cases hresolve
  · cases heq

/-- A search from a pointer that breaks off has found a root that does. -/
theorem ScopeSearch.Ends.breaks {schema : Value} {pointer : String} {e : Pointer.Error}
    (h : Ends schema ⟨[pointer], [pointer]⟩ (.error e)) :
    ∃ roots r, Trail schema pointer roots ∧ r ∈ roots ∧ Pointer.Breaks schema r := by
  rcases h.settled (.start schema pointer) with
    ⟨_, heq, _⟩ | ⟨roots, r, e', -, htrail, hr, hresolve⟩
  · cases heq
  · exact ⟨roots, r, htrail, hr, Pointer.resolve_eq_error_iff.mp hresolve⟩

/-- The search for the scope of a pointer comes to an end, whatever circles the references make.
Either it gives the roots of the scope, or it finds a root that breaks off. -/
theorem scopeRoots_settled (schema : Value) {pointer : String} (h : pointer ≠ "") :
    ScopeSearch.Ends schema ⟨[pointer], [pointer]⟩ (scopeRoots schema pointer) ∧
      ((∃ roots, scopeRoots schema pointer = .ok roots ∧ IsScope schema pointer roots ∧
          ∀ r ∈ roots, ¬ Pointer.Breaks schema r) ∨
        ∃ roots r, scopeRoots schema pointer = .error .badIndex ∧ Trail schema pointer roots ∧
          r ∈ roots ∧ Pointer.Breaks schema r) := by
  have hends := ends_scopeRoots schema h
  refine ⟨hends, ?_⟩
  cases hresult : scopeRoots schema pointer with
  | ok roots => exact .inl ⟨roots, rfl, (hresult ▸ hends).isScope⟩
  | error e =>
      obtain ⟨roots, r, hbreaks⟩ := (hresult ▸ hends).breaks
      exact .inr ⟨roots, r, rfl, hbreaks⟩

/-- Two definitions that refer to each other and to themselves. -/
def entangled : Value :=
  .obj [("definitions", .obj [
    ("a", .obj [("allOf", .arr [.obj [("$ref", .str "#/definitions/b")],
      .obj [("$ref", .str "#/definitions/a/allOf/0")]])]),
    ("b", .obj [("items", .obj [("$ref", .str "#/definitions/a")]),
      ("not", .obj [("$ref", .str "#/definitions/b")])])])]

theorem scopeRoots_settled_entangled :
    "/definitions/a" ≠ "" ∧
      scopeRoots entangled "/definitions/a" = .ok ["/definitions/a", "/definitions/b"] ∧
      IsScope entangled "/definitions/a" ["/definitions/a", "/definitions/b"] := by
  have hne : "/definitions/a" ≠ "" := by decide
  have hroots : scopeRoots entangled "/definitions/a" =
      .ok ["/definitions/a", "/definitions/b"] := by decide +kernel
  refine ⟨hne, hroots, ?_⟩
  rcases (scopeRoots_settled entangled hne).2 with ⟨roots, heq, hscope, -⟩ | ⟨_, _, he, -⟩
  · rw [hroots] at heq
    rwa [← Except.ok.inj heq] at hscope
  · rw [hroots] at he
    cases he

/-- A member that refers to an item by a digit that is no numeral. -/
def raised : Value := .obj [("a", .obj [("$ref", .str "#/list/²")]), ("list", .arr [])]

/-- That a pointer can be resolved does not mean that its scope can be found. -/
theorem not_forall_isScope : ¬ ∀ (schema : Value) (pointer : String), pointer ≠ "" →
    ¬ Pointer.Breaks schema pointer →
    ∃ roots, scopeRoots schema pointer = .ok roots ∧ IsScope schema pointer roots := by
  intro h
  have hroots : scopeRoots raised "/a" = .error .badIndex := by decide +kernel
  have hresolve : (Pointer.resolve raised "/a").toOption.isSome = true := by decide +kernel
  obtain ⟨roots, heq, -⟩ := h raised "/a" (by decide) fun hbreaks => by
    rw [Pointer.resolve_eq_error_iff (e := .badIndex).mpr hbreaks] at hresolve
    cases hresolve
  rw [hroots] at heq
  cases heq

end ModAtlas.Schema
