import Mathlib.Data.List.ProdSigma
import Mathlib.Data.List.Perm.Subperm
import ModAtlas.Proofs.Document.Walk
import ModAtlas.Proofs.Schema.Positions
import ModAtlas.Proofs.Schema.Rules

/-!
# Matching is the closure of its rules

A run of `follow` leaves a trail of matches, each of them new and handed on by an earlier one, and
whatever a match on the trail hands on is on the trail as well. The pairs of a pointer and a place
are finite in number, also when references lead in circles, and the fuel is one more than there
are, so that it never runs out.
-/

namespace ModAtlas.Schema
open ModAtlas.Json ModAtlas.Document

/-- The handing that a match came from. -/
def Match.handing (m : Match) : Handing := ⟨m.pointer, .obj m.members, m.place⟩

namespace Matching

section Following
variable (root : Value) (valid : Validity) (test : PatternTest)

/-- One of the matches hands a schema on. -/
def HandedBy (found : List Match) (h : Handing) : Prop :=
  ∃ m ∈ found, .ok h ∈ handedOn root valid test m.pointer m.members m.place

/-- If what was handed on can govern, there is a match for it. -/
def Covered (found : List Match) (h : Handing) : Prop :=
  ∀ members, h.schema = .obj members → found.any (·.isFor h.pointer h.place) = true

/-- No rule of a match breaks off, and all that it hands on is covered. -/
def Closed (found : List Match) (m : Match) : Prop :=
  ∀ x ∈ handedOn root valid test m.pointer m.members m.place, ∃ h, x = .ok h ∧ Covered found h

/-- Matches, latest first, as they are found one after the other: each of them is new, and all but
the first are handed on by an earlier one. -/
inductive Trail (start : Match) : List Match → Prop
  | start : Trail start [start]
  | visit {found : List Match} {m : Match} (before : Trail start found)
      (handed : HandedBy root valid test found m.handing)
      (new : found.any (·.isFor m.pointer m.place) = false) : Trail start (m :: found)

/-- What following some handings does to the matches found so far. -/
structure Followed (start : Match) (handings : Handings) (found found' : List Match) : Prop where
  suffix : found <:+ found'
  covered : ∀ x ∈ handings, ∃ h, x = .ok h ∧ Covered found' h
  closed : ∀ m ∈ found', m ∈ found ∨ Closed root valid test found' m
  trail : Trail root valid test start found →
    (∀ h, .ok h ∈ handings → HandedBy root valid test found h) →
    Trail root valid test start found'

end Following

section Steps
variable {root : Value} {valid : Validity} {test : PatternTest} {start : Match}
  {found found' : List Match} {h : Handing}

theorem HandedBy.mono (hh : HandedBy root valid test found h) (hsub : found ⊆ found') :
    HandedBy root valid test found' h := by
  obtain ⟨m, hm, hin⟩ := hh
  exact ⟨m, hsub hm, hin⟩

theorem Covered.mono (hc : Covered found h) (hsub : found ⊆ found') : Covered found' h := by
  intro members hmembers
  obtain ⟨m, hm, hfor⟩ := List.any_eq_true.mp (hc members hmembers)
  exact List.any_eq_true.mpr ⟨m, hsub hm, hfor⟩

theorem Closed.mono {m : Match} (hc : Closed root valid test found m) (hsub : found ⊆ found') :
    Closed root valid test found' m := by
  intro x hx
  obtain ⟨h, rfl, hcovered⟩ := hc x hx
  exact ⟨h, rfl, hcovered.mono hsub⟩

theorem Followed.nil (start : Match) (found : List Match) :
    Followed root valid test start [] found found where
  suffix := List.suffix_refl found
  covered := by
    intro x hx
    cases hx
  closed := fun _ hm => .inl hm
  trail := fun htrail _ => htrail

theorem Followed.cons {found'' : List Match} {rest : Handings}
    (first : Followed root valid test start [.ok h] found found')
    (later : Followed root valid test start rest found' found'') :
    Followed root valid test start (.ok h :: rest) found found'' where
  suffix := first.suffix.trans later.suffix
  covered := by
    intro x hx
    rcases List.mem_cons.mp hx with rfl | hx
    · obtain ⟨h', hh, hcovered⟩ := first.covered _ List.mem_cons_self
      exact ⟨h', hh, hcovered.mono later.suffix.subset⟩
    · exact later.covered x hx
  closed := by
    intro m hm
    rcases later.closed m hm with hm | hclosed
    · rcases first.closed m hm with hm | hclosed
      · exact .inl hm
      · exact .inr (hclosed.mono later.suffix.subset)
    · exact .inr hclosed
  trail := by
    intro htrail hhanded
    apply later.trail
    · apply first.trail htrail
      intro h' hh'
      cases List.mem_singleton.mp hh'
      exact hhanded h List.mem_cons_self
    · intro h' hh'
      exact (hhanded h' (List.mem_cons_of_mem _ hh')).mono first.suffix.subset

/-- Following handings one after the other. -/
theorem followed_of_foldlM {fuel : Nat}
    (ih : ∀ {h found found'}, follow root valid test fuel h found = .ok found' →
      Followed root valid test start [.ok h] found found')
    {handings : Handings}
    (hfold : handings.foldlM
      (fun found next => do follow root valid test fuel (← next) found) found = .ok found') :
    Followed root valid test start handings found found' := by
  induction handings generalizing found with
  | nil =>
      cases hfold
      exact .nil start _
  | cons x rest ihrest =>
      rw [List.foldlM_cons] at hfold
      cases x with
      | error e => cases hfold
      | ok h =>
          cases hfollow : follow root valid test fuel h found with
          | error e => simp [hfollow, bind, Except.bind] at hfold
          | ok middle =>
              exact (ih hfollow).cons
                (ihrest (by simpa [hfollow, bind, Except.bind] using hfold))

/-- A subschema that is new is put on the trail before what it hands on. -/
theorem Followed.visit {members : Members} (hschema : h.schema = .obj members)
    (new : found.any (·.isFor h.pointer h.place) = false)
    (later : Followed root valid test start (handedOn root valid test h.pointer members h.place)
      (⟨h.pointer, members, h.place⟩ :: found) found') :
    Followed root valid test start [.ok h] found found' where
  suffix := (List.suffix_cons _ found).trans later.suffix
  covered := by
    intro x hx
    refine ⟨h, List.mem_singleton.mp hx, fun _ _ => ?_⟩
    refine List.any_eq_true.mpr ⟨_, later.suffix.subset List.mem_cons_self, ?_⟩
    simp [Match.isFor, Place.same]
  closed := by
    intro m hm
    rcases later.closed m hm with hm | hclosed
    · rcases List.mem_cons.mp hm with rfl | hm
      · exact .inr later.covered
      · exact .inl hm
    · exact .inr hclosed
  trail := by
    intro htrail hhanded
    obtain ⟨pointer, schema, place⟩ := h
    obtain rfl : schema = .obj members := hschema
    apply later.trail
    · exact .visit htrail (hhanded _ List.mem_cons_self) new
    · intro h' hh'
      exact ⟨_, List.mem_cons_self, hh'⟩

theorem Followed.stay (hcovered : Covered found h) :
    Followed root valid test start [.ok h] found found where
  suffix := List.suffix_refl found
  covered := fun _ hx => ⟨h, List.mem_singleton.mp hx, hcovered⟩
  closed := fun _ hm => .inl hm
  trail := fun htrail _ => htrail

/-- What a run of `follow` does. -/
theorem followed_of_follow {fuel : Nat}
    (hfollow : follow root valid test fuel h found = .ok found') :
    Followed root valid test start [.ok h] found found' := by
  induction fuel generalizing h found found' with
  | zero => cases hfollow
  | succ fuel ih =>
      rw [follow] at hfollow
      split at hfollow
      · rename_i members hschema
        split at hfollow
        · rename_i hseen
          cases hfollow
          exact .stay fun _ _ => hseen
        · rename_i hnew
          exact .visit hschema (Bool.eq_false_iff.mpr hnew) (followed_of_foldlM ih hfollow)
      · rename_i hother
        cases hfollow
        exact .stay fun members hmembers => absurd hmembers (hother members)

end Steps

/-! ## The pairs that can occur -/

/-- At least as many as there are pairs of a position and a place. -/
def capacity (root : Value) (document : Place) : Nat :=
  (root.count + 1) * (root.count + 1) * document.walk.length

section Pairs
variable {root : Value}

/-- What is handed on stands at one of the positions, if what hands it on does. -/
theorem mem_allPositions_of_handsOn {valid : Validity} {test : PatternTest} {m : Match}
    {h : Handing} (hm : (m.pointer, Value.obj m.members) ∈ allPositions root)
    (hrule : HandsOn root valid test m h) :
    (h.pointer, h.schema) ∈ allPositions root := by
  have hmember {key : String} {v : Value} (hget : Members.get? m.members key = some v) :
      (Pointer.child m.pointer key, v) ∈ allPositions root :=
    mem_allPositions_of_mem_parts hm (mem_parts_of_get? hget)
  cases hrule with
  | reference member isLocal leads =>
      obtain ⟨q, hq⟩ := exists_mem_positions_root (hmember member)
      refine List.mem_flatMap.mpr ⟨_, ?_, mem_positionsFrom.mpr ⟨_, leads, self_mem_positions _ _⟩⟩
      exact List.mem_cons_of_mem _ (List.mem_filterMap.mpr ⟨_, hq, isLocal⟩)
  | allOf member item =>
      exact mem_allPositions_of_mem_parts (hmember member) (mem_parts_of_getElem? item)
  | validBranch isBranching member item isValid =>
      exact mem_allPositions_of_mem_parts (hmember member) (mem_parts_of_getElem? item)
  | anyBranch isBranching member item noneValid =>
      exact mem_allPositions_of_mem_parts (hmember member) (mem_parts_of_getElem? item)
  | consequent member isValid branch => exact hmember branch
  | alternative member isInvalid branch => exact hmember branch
  | property part declared =>
      obtain ⟨schemas, hget, hname⟩ := declared
      exact mem_allPositions_of_mem_parts (hmember hget) (mem_parts_of_get? hname)
  | patternProperty part fits =>
      obtain ⟨schemas, hget, hin, -⟩ := fits
      exact mem_allPositions_of_mem_parts (hmember hget) (mem_parts_of_mem hin)
  | additionalProperty part undeclared unfitting member => exact hmember member
  | items part member => exact hmember member
  | itemAt part member own =>
      exact mem_allPositions_of_mem_parts (hmember member) (mem_parts_of_getElem? own)
  | additionalItem part member beyond additional => exact hmember additional

/-- What is handed on stands in the same document. -/
theorem mem_walk_of_handsOn {valid : Validity} {test : PatternTest} {m : Match} {h : Handing}
    {document : Place} (hm : m.place ∈ document.walk) (hrule : HandsOn root valid test m h) :
    h.place ∈ document.walk := by
  have hproperty {name : String} {value : Place} (part : IsProperty m.place name value) :
      value ∈ document.walk := by
    obtain ⟨-, p, hp, -, hvalue⟩ := part
    exact Place.mem_walk_of_mem_children (Place.mem_walk_of_mem_children hm hp)
      (Place.value?_mem_children hvalue)
  have hitem {index : Nat} {item : Place} (part : IsItem m.place index item) :
      item ∈ document.walk :=
    Place.mem_walk_of_mem_children hm (List.mem_of_getElem? part.2)
  cases hrule with
  | property part declared => exact hproperty part
  | patternProperty part fits => exact hproperty part
  | additionalProperty part undeclared unfitting member => exact hproperty part
  | items part member => exact hitem part
  | itemAt part member own => exact hitem part
  | additionalItem part member beyond additional => exact hitem part
  | _ => exact hm

end Pairs

/-! ## Trails -/

namespace Trail
variable {root : Value} {valid : Validity} {test : PatternTest} {members : Members}
  {document : Place} {start : Match} {found : List Match}

theorem ne_nil (h : Trail root valid test start found) : found ≠ [] := by
  cases h <;> exact List.cons_ne_nil _ _

/-- On a trail every match but the first was handed on by one before it. -/
theorem handed_of_split (h : Trail root valid test start found) {later before : List Match}
    {m : Match} (hsplit : found = later ++ m :: before) :
    before = [] ∧ m = start ∨ HandedBy root valid test before m.handing := by
  induction h generalizing later with
  | start =>
      cases later with
      | nil =>
          obtain ⟨rfl, rfl⟩ := List.cons.inj hsplit
          exact .inl ⟨rfl, rfl⟩
      | cons l later =>
          have := (List.cons.inj hsplit).2
          simp at this
  | visit before handed new ih =>
      cases later with
      | nil =>
          obtain ⟨rfl, rfl⟩ := List.cons.inj hsplit
          exact .inr handed
      | cons l later => exact ih (List.cons.inj hsplit).2

/-- No pair of a pointer and a place is twice on a trail. -/
theorem pairwise_new (h : Trail root valid test start found) :
    found.Pairwise fun later before =>
      ¬ (before.pointer = later.pointer ∧ before.place.same later.place = true) := by
  induction h with
  | start => exact List.pairwise_singleton _ _
  | visit before handed new ih =>
      refine .cons (fun b hb hsame => ?_) ih
      have hfor := List.any_eq_false.mp new b hb
      exact hfor (by simp [Match.isFor, hsame.1, hsame.2])

/-- A trail stays among the positions of the schema and the places of the document. -/
theorem mem_pairs (h : Trail root valid test start found)
    (hstart : start.handing = ⟨"", root, document⟩) :
    ∀ m ∈ found, (m.pointer, Value.obj m.members) ∈ allPositions root ∧
      m.place ∈ document.walk := by
  induction h with
  | start =>
      intro m hm
      obtain rfl := List.mem_singleton.mp hm
      obtain ⟨hpointer, hschema, hplace⟩ := Handing.mk.inj hstart
      rw [hpointer, hschema, hplace]
      exact ⟨root_mem_allPositions, Place.self_mem_walk document⟩
  | visit before handed new ih =>
      intro m hm
      rcases List.mem_cons.mp hm with rfl | hm
      · obtain ⟨m', hm', hin⟩ := handed
        have hrule := handsOn_of_mem hin
        exact ⟨mem_allPositions_of_handsOn (ih m' hm').1 hrule,
          mem_walk_of_handsOn (ih m' hm').2 hrule⟩
      · exact ih m hm

/-- A trail is no longer than there are pairs of a pointer and a place. -/
theorem length_le (h : Trail root valid test start found)
    (hstart : start.handing = ⟨"", root, document⟩) :
    found.length ≤ capacity root document := by
  have hnodup : (found.map fun m => (m.pointer, m.place)).Nodup := by
    refine List.pairwise_map.mpr (h.pairwise_new.imp ?_)
    rintro later before hnew heq
    obtain ⟨hpointer, hplace⟩ := Prod.mk.inj heq
    exact hnew ⟨hpointer.symm, by rw [hplace]; simp [Place.same]⟩
  have hsub : (found.map fun m => (m.pointer, m.place)) ⊆
      (allPositions root).map Prod.fst ×ˢ document.walk := by
    intro p hp
    obtain ⟨m, hm, rfl⟩ := List.mem_map.mp hp
    obtain ⟨hposition, hplace⟩ := h.mem_pairs hstart m hm
    exact List.mem_product.mpr ⟨List.mem_map.mpr ⟨_, hposition, rfl⟩, hplace⟩
  have hle := (List.subperm_of_subset hnodup hsub).length_le
  rw [List.length_map, List.length_product, List.length_map] at hle
  exact hle.trans (Nat.mul_le_mul_right _ length_allPositions_le)

end Trail

/-! ## The fuel -/

theorem outOfFuel_notMem_byProperty (pointer : String) (members : Members) (p : Place) :
    .error .outOfFuel ∉ byProperty test pointer members p := by
  have hdeclared : declaredFor members (p.node.name?.getD "") ≠ .error .outOfFuel := by
    unfold declaredFor
    repeat' split
    all_goals simp
  have hpatterns : patternsFor test members (p.node.name?.getD "") ≠ .error .outOfFuel := by
    unfold patternsFor
    split <;> simp
  unfold byProperty
  split
  · exact List.not_mem_nil
  dsimp only
  split
  · rename_i e he
    rw [he] at hdeclared
    simpa [eq_comm] using hdeclared
  split
  · rename_i e he
    rw [he] at hpatterns
    simpa [eq_comm] using hpatterns
  split
  · simp
  · split <;> simp

theorem outOfFuel_notMem_byItem (pointer : String) (members : Members) (index : Nat)
    (item : Place) : .error .outOfFuel ∉ byItem pointer members index item := by
  unfold byItem
  repeat' split
  all_goals simp

/-- No rule runs out of fuel by itself. -/
theorem outOfFuel_notMem_handedOn (root : Value) (valid : Validity) (test : PatternTest)
    (pointer : String) (members : Members) (place : Place) :
    .error .outOfFuel ∉ handedOn root valid test pointer members place := by
  simp only [handedOn, List.mem_append, not_or]
  refine ⟨⟨⟨⟨⟨?_, ?_⟩, ?_⟩, ?_⟩, ?_⟩, ?_⟩
  · unfold byReference
    repeat' split
    all_goals simp
  · unfold byAllOf
    split <;> simp [atIndices]
  · unfold byBranches
    split <;> simp
  · unfold byBranches
    split <;> simp
  · unfold byCondition
    split
    · exact List.not_mem_nil
    · dsimp only
      split <;> simp
  · unfold byParts
    split
    · simp [outOfFuel_notMem_byProperty]
    · simp [outOfFuel_notMem_byItem]
    · exact List.not_mem_nil

section Fuel
variable {root : Value} {valid : Validity} {test : PatternTest} {start : Match} {bound : Nat}
  (bounded : ∀ found, Trail root valid test start found → found.length ≤ bound)

theorem foldlM_ne_outOfFuel {fuel : Nat}
    (ih : ∀ {h found}, Trail root valid test start found → HandedBy root valid test found h →
      bound < fuel + found.length → follow root valid test fuel h found ≠ .error .outOfFuel)
    {handings : Handings} (within : .error .outOfFuel ∉ handings) {found : List Match}
    (htrail : Trail root valid test start found)
    (handed : ∀ h, .ok h ∈ handings → HandedBy root valid test found h)
    (enough : bound < fuel + found.length) :
    handings.foldlM (fun found next => do follow root valid test fuel (← next) found) found ≠
      .error .outOfFuel := by
  induction handings generalizing found with
  | nil =>
      intro h
      cases h
  | cons x rest ihrest =>
      obtain ⟨hx, hrest⟩ : x ≠ .error .outOfFuel ∧ .error .outOfFuel ∉ rest := by
        simpa [eq_comm] using within
      rw [List.foldlM_cons]
      cases x with
      | error e => simpa [bind, Except.bind] using hx
      | ok h =>
          have hh := handed h List.mem_cons_self
          cases hfollow : follow root valid test fuel h found with
          | error e => simpa [hfollow, bind, Except.bind] using ih htrail hh enough
          | ok middle =>
              have hfollowed : Followed root valid test start [.ok h] found middle :=
                followed_of_follow hfollow
              have hmiddle : Trail root valid test start middle := by
                refine hfollowed.trail htrail fun h' hh' => ?_
                cases List.mem_singleton.mp hh'
                exact hh
              have hlater := ihrest hrest hmiddle
                (fun h' hh' => (handed h' (List.mem_cons_of_mem _ hh')).mono
                  hfollowed.suffix.subset)
                (Nat.lt_of_lt_of_le enough
                  (Nat.add_le_add_left hfollowed.suffix.length_le fuel))
              simpa [hfollow, bind, Except.bind] using hlater

include bounded

/-- As long as the fuel outlasts what a trail can still take in, it does not run out. -/
theorem follow_ne_outOfFuel {fuel : Nat} {h : Handing} {found : List Match}
    (htrail : Trail root valid test start found) (handed : HandedBy root valid test found h)
    (enough : bound < fuel + found.length) :
    follow root valid test fuel h found ≠ .error .outOfFuel := by
  induction fuel generalizing h found with
  | zero =>
      have := bounded found htrail
      omega
  | succ fuel ih =>
      rw [follow]
      split
      · rename_i members hschema
        split
        · simp
        · rename_i hnew
          have hvisit : Trail root valid test start (⟨h.pointer, members, h.place⟩ :: found) := by
            obtain ⟨pointer, schema, place⟩ := h
            obtain rfl : schema = .obj members := hschema
            exact .visit htrail handed (Bool.eq_false_iff.mpr hnew)
          refine foldlM_ne_outOfFuel ih (outOfFuel_notMem_handedOn _ _ _ _ _ _) hvisit ?_ ?_
          · intro h' hh'
            exact ⟨_, List.mem_cons_self, hh'⟩
          · rw [List.length_cons]
            omega
      · simp

end Fuel

/-! ## The closure -/

section Whole
variable (valid : Validity) (test : PatternTest) (members : Members) (document : Node)

/-- The match of the whole schema with the whole document. -/
def whole : Match := ⟨"", members, .root document⟩

/-- What is handed on by the whole schema. -/
theorem matchingWith_eq :
    matchingWith valid test (.obj members) document =
      ((handedOn (.obj members) valid test "" members (.root document)).foldlM
        (fun found next => do
          follow (.obj members) valid test (capacity (.obj members) (.root document)) (← next)
            found)
        [whole members document]).map List.reverse := by
  simp [matchingWith, fuel, follow, whole, capacity]

theorem handedBy_whole {h : Handing}
    (hh : .ok h ∈ handedOn (.obj members) valid test "" members (.root document)) :
    HandedBy (.obj members) valid test [whole members document] h :=
  ⟨_, List.mem_singleton_self _, hh⟩

theorem matchingWith_ne_outOfFuel :
    matchingWith valid test (.obj members) document ≠ .error .outOfFuel := by
  rw [matchingWith_eq]
  have hbounded (found : List Match)
      (htrail : Trail (.obj members) valid test (whole members document) found) :
      found.length ≤ capacity (.obj members) (.root document) := htrail.length_le rfl
  have hfold := foldlM_ne_outOfFuel (follow_ne_outOfFuel hbounded)
    (outOfFuel_notMem_handedOn (.obj members) valid test "" members (.root document)) .start
    (fun _ hh => handedBy_whole valid test members document hh)
    (Nat.lt_succ_self (capacity (.obj members) (.root document)))
  have herror {x : Except MatchError (List Match)} (h : x.map List.reverse = .error .outOfFuel) :
      x = .error .outOfFuel := by
    cases x with
    | error e => exact h
    | ok found => cases h
  exact fun h => hfold (herror h)

/-- A result is a trail, read from its start, and closed. -/
theorem exists_trail_of_matchingWith {found : List Match}
    (hfound : matchingWith valid test (.obj members) document = .ok found) :
    Trail (.obj members) valid test (whole members document) found.reverse ∧
      ∀ m ∈ found.reverse, Closed (.obj members) valid test found.reverse m := by
  rw [matchingWith_eq] at hfound
  cases hfold : (handedOn (.obj members) valid test "" members (.root document)).foldlM
      (fun found next => do
        follow (.obj members) valid test (capacity (.obj members) (.root document)) (← next) found)
      [whole members document] with
  | error e =>
      rw [hfold] at hfound
      cases hfound
  | ok trail =>
      rw [hfold] at hfound
      cases hfound
      rw [List.reverse_reverse]
      have hfollowed : Followed (.obj members) valid test (whole members document) _ _ trail :=
        followed_of_foldlM followed_of_follow hfold
      refine ⟨hfollowed.trail .start fun _ hh => handedBy_whole valid test members document hh, ?_⟩
      intro m hm
      rcases hfollowed.closed m hm with hm | hclosed
      · obtain rfl := List.mem_singleton.mp hm
        exact hfollowed.covered
      · exact hclosed

/-- Matching never runs out of fuel, and what it reports is the closure of the rules: the whole
schema comes first, every other match is handed on by an earlier one, every object that a match
hands on is reported, and no pair of a pointer and a place is reported twice. -/
theorem matchingWith_closure :
    matchingWith valid test (.obj members) document ≠ .error .outOfFuel ∧
    ∀ found, matchingWith valid test (.obj members) document = .ok found →
      found.head? = some ⟨"", members, .root document⟩ ∧
      (∀ before m after, found = before ++ m :: after → before ≠ [] →
        ∃ m' ∈ before, HandsOn (.obj members) valid test m' ⟨m.pointer, .obj m.members, m.place⟩) ∧
      (∀ m ∈ found, ∀ pointer inner place,
        HandsOn (.obj members) valid test m ⟨pointer, .obj inner, place⟩ →
          ∃ m' ∈ found, m'.pointer = pointer ∧ m'.place = place) ∧
      found.Pairwise fun m m' => ¬ (m.pointer = m'.pointer ∧ m.place.same m'.place = true) := by
  refine ⟨matchingWith_ne_outOfFuel valid test members document, fun found hfound => ?_⟩
  obtain ⟨htrail, hclosed⟩ := exists_trail_of_matchingWith valid test members document hfound
  have hsplit (before : List Match) (m : Match) (after : List Match)
      (h : found = before ++ m :: after) := htrail.handed_of_split
    (show found.reverse = after.reverse ++ m :: before.reverse by simp [h])
  refine ⟨?_, ?_, ?_, ?_⟩
  · cases found with
    | nil => exact absurd rfl htrail.ne_nil
    | cons m after =>
        rcases hsplit [] m after rfl with ⟨-, rfl⟩ | ⟨m', hm', -⟩
        · rfl
        · cases hm'
  · intro before m after h hne
    rcases hsplit before m after h with ⟨hnil, -⟩ | ⟨m', hm', hin⟩
    · exact absurd (List.reverse_eq_nil_iff.mp hnil) hne
    · exact ⟨m', List.mem_reverse.mp hm', handsOn_of_mem hin⟩
  · intro m hm pointer inner place hrule
    have hm := List.mem_reverse.mpr hm
    have hpairs := htrail.mem_pairs rfl
    have hwhole (e : MatchError) :
        .error e ∉ handedOn (.obj members) valid test m.pointer m.members m.place := by
      intro he
      obtain ⟨h, hh, -⟩ := hclosed m hm _ he
      cases hh
    obtain ⟨h, hh, hcovered⟩ := hclosed m hm _ (mem_of_handsOn hwhole hrule)
    cases hh
    obtain ⟨m', hm', hfor⟩ := List.any_eq_true.mp (hcovered inner rfl)
    obtain ⟨hpointer, hsame⟩ := Bool.and_eq_true_iff.mp hfor
    exact ⟨m', List.mem_reverse.mp hm', eq_of_beq hpointer, Place.eq_of_same (hpairs m' hm').2
      (mem_walk_of_handsOn (hpairs m hm).2 hrule) hsame⟩
  · exact List.pairwise_reverse.mp htrail.pairwise_new

end Whole

/-- A schema whose references lead in a circle, with schemas for the properties that patterns
match. -/
def circular : Members :=
  [("$ref", .str "#"), ("allOf", .arr [.obj [("$ref", .str "#/allOf/0")]]),
    ("patternProperties", .obj [("^a", .obj []), ("b$", .obj [])])]

/-- The document `{"ab": 1}`. -/
def smallObject : Node :=
  .object ⟨0, 9⟩
    [.property ⟨1, 7⟩ (.scalar ⟨1, 4⟩ (.string "ab")) 5 (.scalar ⟨7, 1⟩ (.number (.int 1)))]

theorem matching_circular :
    (matchingWith (fun _ _ => true) Pattern.test (.obj circular) smallObject).toOption.map
      (·.map (·.pointer)) =
        some ["", "/allOf/0", "/patternProperties/^a", "/patternProperties/b$"] := by
  decide +kernel

theorem matchingWith_closure_circular :
    ∃ found, matchingWith (fun _ _ => true) Pattern.test (.obj circular) smallObject = .ok found ∧
      found.map (·.pointer) =
        ["", "/allOf/0", "/patternProperties/^a", "/patternProperties/b$"] ∧
      found.head? = some ⟨"", circular, .root smallObject⟩ ∧
      ∀ m ∈ found.tail, ∃ m' ∈ found, HandsOn (.obj circular) (fun _ _ => true) Pattern.test m'
        ⟨m.pointer, .obj m.members, m.place⟩ := by
  have hpointers := matching_circular
  cases hfound : matchingWith (fun _ _ => true) Pattern.test (.obj circular) smallObject with
  | error e => simp [hfound, Except.toOption] at hpointers
  | ok found =>
      obtain ⟨hhead, hhanded, -, -⟩ :=
        (matchingWith_closure (fun _ _ => true) Pattern.test circular smallObject).2 found hfound
      refine ⟨found, rfl, by simpa [hfound, Except.toOption] using hpointers, hhead, ?_⟩
      intro m hm
      cases found with
      | nil => cases hm
      | cons first rest =>
          obtain ⟨before, after, rfl⟩ : ∃ before after, rest = before ++ m :: after :=
            List.append_of_mem hm
          obtain ⟨m', hm', hrule⟩ :=
            hhanded (first :: before) m after rfl (List.cons_ne_nil _ _)
          exact ⟨m', List.mem_append_left (m :: after) hm', hrule⟩

end Matching
end ModAtlas.Schema
