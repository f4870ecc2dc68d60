import ModAtlas.Proofs.Json.Integer
import ModAtlas.Proofs.Schema.Closure
import ModAtlas.Schema.Subschema

/-!
# What the enumeration of subschemas sees

The enumeration goes from a schema to the members of its objects, those under data keys apart, and
to the items of its arrays. So no pointer that it gives ends in a data key, and a local reference
leads to a subschema that it gives when it is spelled as the enumeration spells it.
-/

namespace ModAtlas.Schema
open ModAtlas.Json

/-! ## Pointers -/

namespace Pointer

theorem slash_notMem_escapeChar (c : Char) : '/' ∉ escapeChar c := by
  unfold escapeChar
  split
  · decide
  · split
    · decide
    · rename_i hslash
      simpa using Ne.symm hslash

theorem slash_notMem_escape (key : String) : '/' ∉ (escape key).toList := by
  rw [escape, String.toList_ofList, List.mem_flatMap]
  rintro ⟨c, -, hc⟩
  exact slash_notMem_escapeChar c hc

theorem unescapeChars_escape (cs : List Char) : unescapeChars (cs.flatMap escapeChar) = cs := by
  induction cs with
  | nil => rfl
  | cons c cs ih =>
      rw [List.flatMap_cons, escapeChar]
      split
      · rename_i hc
        subst hc
        exact congrArg _ ih
      · split
        · rename_i hc
          subst hc
          exact congrArg _ ih
        · rename_i htilde hslash
          rw [List.cons_append, List.nil_append, unescapeChars, ih]
          all_goals exact fun _ h => absurd h htilde

theorem escape_injective {key key' : String} (h : escape key = escape key') : key = key' := by
  have hlist := congrArg String.toList h
  rw [escape, escape, String.toList_ofList, String.toList_ofList] at hlist
  apply String.toList_injective
  rw [← unescapeChars_escape key.toList, hlist, unescapeChars_escape]

/-- Texts without a slash at the end of two equal texts are equal, when a slash is before each. -/
theorem append_slash_inj {s t u v : List Char} (hu : '/' ∉ u) (hv : '/' ∉ v)
    (h : s ++ '/' :: u = t ++ '/' :: v) : s = t ∧ u = v := by
  rcases List.append_eq_append_iff.mp h with ⟨m, rfl, hm⟩ | ⟨m, rfl, hm⟩
  · cases m with
    | nil => simpa using hm
    | cons c m =>
        obtain ⟨rfl, rfl⟩ := List.cons.inj hm
        simp at hu
  · cases m with
    | nil => simpa using hm.symm
    | cons c m =>
        obtain ⟨rfl, rfl⟩ := List.cons.inj hm
        simp at hv

theorem toList_child (pointer key : String) :
    (child pointer key).toList = pointer.toList ++ '/' :: (escape key).toList := by
  simp [child]

theorem child_inj {p q key key' : String} (h : child p key = child q key') :
    p = q ∧ key = key' := by
  have hlist := congrArg String.toList h
  rw [toList_child, toList_child] at hlist
  obtain ⟨hp, hkey⟩ := append_slash_inj (slash_notMem_escape key) (slash_notMem_escape key') hlist
  exact ⟨String.toList_injective hp, escape_injective (String.toList_injective hkey)⟩

theorem child_ne_empty (pointer key : String) : child pointer key ≠ "" := by
  intro h
  have hlist := congrArg String.toList h
  rw [toList_child] at hlist
  simp at hlist

theorem flatMap_escapeChar {cs : List Char} (h : ∀ c ∈ cs, c ≠ '~' ∧ c ≠ '/') :
    cs.flatMap escapeChar = cs := by
  induction cs with
  | nil => rfl
  | cons c cs ih =>
      obtain ⟨htilde, hslash⟩ := h c List.mem_cons_self
      rw [List.flatMap_cons, ih fun d hd => h d (List.mem_cons_of_mem _ hd), escapeChar,
        if_neg htilde, if_neg hslash, List.singleton_append]

/-- The decimal of an index needs no escapes. -/
theorem escape_toString (n : Nat) : escape (toString n) = toString n := by
  rw [Nat.toString_eq_ofList_toDigits, escape, String.toList_ofList, flatMap_escapeChar]
  intro c hc
  have hdigit := Numeral.isDigit_of_mem_toDigits hc
  constructor
  all_goals
    rintro rfl
    revert hdigit
    decide

theorem item_eq_child (pointer : String) (index : Nat) :
    item pointer index = child pointer (toString index) := by
  rw [item, child, escape_toString]

end Pointer

/-! ## What is enumerated -/

/-- From a value at a pointer the enumeration comes to another value at another pointer. -/
inductive Sees (p : String) (v : Value) : String → Value → Prop
  | self : Sees p v p v
  | member {q key : String} {members : Members} {w : Value} (object : Sees p v q (.obj members))
      (mem : (key, w) ∈ members) (notData : isDataKey key = false) :
      Sees p v (Pointer.child q key) w
  | item {q : String} {items : List Value} {index : Nat} {w : Value}
      (array : Sees p v q (.arr items)) (own : items[index]? = some w) :
      Sees p v (Pointer.item q index) w

section Sees
variable {p q r : String} {u v w : Value}

theorem Sees.trans (hv : Sees p u q v) (hw : Sees q v r w) : Sees p u r w := by
  induction hw with
  | self => exact hv
  | member _ mem notData ih => exact .member ih mem notData
  | item _ own ih => exact .item ih own

theorem Sees.get? {members : Members} {key : String} (h : Sees p v q (.obj members))
    (hget : Members.get? members key = some w) (notData : isDataKey key = false) :
    Sees p v (Pointer.child q key) w := by
  obtain ⟨before, after, rfl, -⟩ := List.lookup_eq_some_iff.mp hget
  exact .member h (by simp) notData

theorem mem_memberSubschemas {sub : Subschema} {members : Members} :
    sub ∈ memberSubschemas p members ↔
      ∃ key w, (key, w) ∈ members ∧ isDataKey key = false ∧
        sub ∈ subschemas (Pointer.child p key) w := by
  induction members with
  | nil => simp [memberSubschemas]
  | cons m rest ih =>
      obtain ⟨key, w⟩ := m
      rw [memberSubschemas]
      split
      · rename_i hdata
        rw [ih]
        constructor
        · rintro ⟨k, x, hmem, hk⟩
          exact ⟨k, x, List.mem_cons_of_mem _ hmem, hk⟩
        · rintro ⟨k, x, hmem, hk, hx⟩
          rcases List.mem_cons.mp hmem with heq | hmem
          · cases heq
            exact absurd hdata (by simp [hk])
          · exact ⟨k, x, hmem, hk, hx⟩
      · rename_i hdata
        rw [List.mem_append, ih]
        constructor
        · rintro (hx | ⟨k, x, hmem, hk⟩)
          · exact ⟨key, w, List.mem_cons_self, by simpa using hdata, hx⟩
          · exact ⟨k, x, List.mem_cons_of_mem _ hmem, hk⟩
        · rintro ⟨k, x, hmem, hk, hx⟩
          rcases List.mem_cons.mp hmem with heq | hmem
          · cases heq
            exact .inl hx
          · exact .inr ⟨k, x, hmem, hk, hx⟩

theorem mem_itemSubschemas {sub : Subschema} {items : List Value} {start : Nat} :
    sub ∈ itemSubschemas p start items ↔
      ∃ i w, items[i]? = some w ∧ sub ∈ subschemas (Pointer.item p (start + i)) w := by
  induction items generalizing start with
  | nil => simp [itemSubschemas]
  | cons x rest ih =>
      rw [itemSubschemas, List.mem_append, ih]
      constructor
      · rintro (hx | ⟨i, w, hi, hw⟩)
        · exact ⟨0, x, rfl, hx⟩
        · exact ⟨i + 1, w, by simpa using hi, by rwa [Nat.add_assoc, Nat.add_comm 1] at hw⟩
      · rintro ⟨i, w, hi, hw⟩
        cases i with
        | zero =>
            obtain rfl : x = w := by simpa using hi
            exact .inl hw
        | succ i => exact .inr ⟨i, w, by simpa using hi, by rwa [Nat.add_assoc, Nat.add_comm 1]⟩

theorem sees_of_mem {sub : Subschema} (h : sub ∈ subschemas p v) :
    Sees p v sub.pointer (.obj sub.members) := by
  induction p, v using positions_induction with
  | step p v ih =>
      cases v with
      | obj members =>
          rcases List.mem_cons.mp h with rfl | h
          · exact .self
          · obtain ⟨key, w, hmem, hdata, hw⟩ := mem_memberSubschemas.mp h
            exact (Sees.self.member hmem hdata).trans (ih _ (mem_parts_of_mem hmem) hw)
      | arr items =>
          obtain ⟨i, w, hi, hw⟩ := mem_itemSubschemas.mp h
          rw [Nat.zero_add] at hw
          exact (Sees.self.item hi).trans (ih _ (mem_parts_of_getElem? hi) hw)
      | _ => cases h

theorem Sees.subset (h : Sees p v q w) : subschemas q w ⊆ subschemas p v := by
  induction h with
  | self => exact fun _ hsub => hsub
  | member object mem notData ih =>
      intro sub hsub
      exact ih (.tail _ (mem_memberSubschemas.mpr ⟨_, _, mem, notData, hsub⟩))
  | @item q items index w array own ih =>
      intro sub hsub
      exact ih (mem_itemSubschemas.mpr ⟨index, w, own, by rwa [Nat.zero_add]⟩)

/-- The enumeration gives the objects that it comes to. -/
theorem mem_subschemas_iff {members : Members} :
    ⟨q, members⟩ ∈ subschemas p v ↔ Sees p v q (.obj members) :=
  ⟨sees_of_mem, fun h => h.subset List.mem_cons_self⟩

theorem isDataKey_toString (n : Nat) : isDataKey (toString n) = false := by
  have hne (key : String) (c : Char) (hmem : c ∈ key.toList) (hc : c.isDigit = false) :
      toString n ≠ key := by
    rintro rfl
    rw [Nat.toString_eq_ofList_toDigits, String.toList_ofList] at hmem
    exact Bool.false_ne_true (hc.symm.trans (Numeral.isDigit_of_mem_toDigits hmem))
  simp only [isDataKey, Bool.or_eq_false_iff, beq_eq_false_iff_ne]
  exact ⟨⟨⟨hne _ 'e' (by decide) rfl, hne _ 'c' (by decide) rfl⟩, hne _ 'd' (by decide) rfl⟩,
    hne _ 'e' (by decide) rfl⟩

/-- No pointer that the enumeration comes to ends in a data key. -/
theorem Sees.notData {key : String} (h : Sees "" v (Pointer.child q key) w) :
    isDataKey key = false := by
  generalize hpointer : Pointer.child q key = pointer at h
  cases h with
  | self => exact absurd hpointer (Pointer.child_ne_empty q key)
  | member object mem notData =>
      obtain ⟨-, rfl⟩ := Pointer.child_inj hpointer
      exact notData
  | @item r items index w array own =>
      rw [Pointer.item_eq_child] at hpointer
      obtain ⟨-, rfl⟩ := Pointer.child_inj hpointer
      exact isDataKey_toString index

/-- A token is no data key, and an index is a canonical decimal. -/
def Pointer.IsPlainToken (t : String) : Prop :=
  isDataKey t = false ∧ (Pointer.isIndex t = true →
    ∀ n, Number.readInt? t.toList = some n → t = toString n.toNat)

/-- A pointer is written as the enumeration writes it: its tokens are plain, and with all their
escapes they give the pointer again. -/
def Pointer.IsPlain (pointer : String) : Prop :=
  pointer = "" ∨ pointer = (Pointer.tokens pointer).foldl Pointer.child "" ∧
    ∀ t ∈ Pointer.tokens pointer, Pointer.IsPlainToken t

theorem Sees.enter {t : String} (h : Sees p u q v) (henter : Pointer.enter t v = .ok (some w))
    (hplain : Pointer.IsPlainToken t) : Sees p u (Pointer.child q t) w := by
  unfold Pointer.enter at henter
  split at henter
  · exact h.get? (by simpa using henter) hplain.1
  · split at henter
    · rename_i hisIndex
      split at henter
      · cases henter
      · rename_i n hread
        have hitem := h.item (by simpa using henter)
        rwa [Pointer.item_eq_child, ← hplain.2 hisIndex n hread] at hitem
    · simp at henter
  · simp at henter

theorem Sees.follow {tokens : List String} (h : Sees p u q v)
    (hfollow : Pointer.follow tokens v = .ok (some w))
    (hplain : ∀ t ∈ tokens, Pointer.IsPlainToken t) :
    Sees p u (tokens.foldl Pointer.child q) w := by
  induction tokens generalizing q v with
  | nil =>
      obtain rfl : v = w := by simpa [Pointer.follow] using hfollow
      exact h
  | cons t tokens ih =>
      obtain ⟨ht, hrest⟩ := List.forall_mem_cons.mp hplain
      rw [Pointer.follow] at hfollow
      cases henter : Pointer.enter t v with
      | error e => simp [henter, bind, Except.bind] at hfollow
      | ok entered =>
          cases entered with
          | none => simp [henter, bind, Except.bind] at hfollow
          | some x =>
              replace hfollow : Pointer.follow tokens x = .ok (some w) := by
                simpa [henter, bind, Except.bind] using hfollow
              exact ih (h.enter henter ht) hfollow hrest

/-- A pointer that is written as the enumeration writes it leads to what the enumeration comes
to. -/
theorem sees_of_resolve {target : String} (hplain : Pointer.IsPlain target)
    (hresolve : Pointer.resolve v target = .ok (some w)) : Sees "" v target w := by
  unfold Pointer.resolve at hresolve
  rcases hplain with rfl | ⟨hspelled, htokens⟩
  · obtain rfl : v = w := by simpa using hresolve
    exact .self
  · split at hresolve
    · rename_i hempty
      obtain rfl : v = w := by simpa using hresolve
      obtain rfl : target = "" := by simpa using hempty
      exact .self
    · rw [hspelled]
      exact Sees.self.follow hresolve htokens

end Sees

/-! ## Matches that the enumeration sees -/

namespace Match
variable (schema : Value) (found : List Match) (m : Match)

/-- The enumeration of the schema gives the subschema of a match. -/
def IsSeen : Prop := ⟨m.pointer, m.members⟩ ∈ subschemas "" schema

/-- A match was handed on under the name of a property, or under a pattern, that is a data key. -/
def IsNamedAsData : Prop :=
  ∃ m' ∈ found, ∃ table name, (table = "properties" ∨ table = "patternProperties") ∧
    isDataKey name = true ∧ m.pointer = Pointer.child (Pointer.child m'.pointer table) name

/-- A match is for the target of a local reference of a match. -/
def IsReferred : Prop :=
  ∃ m' ∈ found, ∃ ref, Members.get? m'.members "$ref" = some ref ∧
    Pointer.localTarget? ref = some m.pointer ∧
    Pointer.resolve schema m.pointer = .ok (some (.obj m.members)) ∧ m.place = m'.place

end Match

namespace Matching
variable {root : Value} {valid : Validity} {test : PatternTest} {found : List Match}

/-- What a seen match hands on is seen, unless it has a data key for its name or is the target of
a reference. -/
theorem sees_of_handsOn {m : Match} {h : Handing}
    (hm : Sees "" root m.pointer (.obj m.members)) (hrule : HandsOn root valid test m h)
    (named : ∀ table name, table = "properties" ∨ table = "patternProperties" →
      h.pointer = Pointer.child (Pointer.child m.pointer table) name → isDataKey name = false)
    (referred : ∀ ref, Members.get? m.members "$ref" = some ref →
      Pointer.localTarget? ref = some h.pointer →
      Pointer.resolve root h.pointer = .ok (some h.schema) → h.place = m.place →
      Sees "" root h.pointer h.schema) : Sees "" root h.pointer h.schema := by
  cases hrule with
  | reference member isLocal leads => exact referred _ member isLocal leads rfl
  | allOf member item => exact (hm.get? member (by decide)).item item
  | validBranch isBranching member item isValid =>
      rcases isBranching with rfl | rfl
      all_goals exact (hm.get? member (by decide)).item item
  | anyBranch isBranching member item noneValid =>
      rcases isBranching with rfl | rfl
      all_goals exact (hm.get? member (by decide)).item item
  | consequent member isValid branch => exact hm.get? branch (by decide)
  | alternative member isInvalid branch => exact hm.get? branch (by decide)
  | property part declared =>
      obtain ⟨schemas, hget, hname⟩ := declared
      exact (hm.get? hget (by decide)).get? hname (named _ _ (.inl rfl) rfl)
  | patternProperty part fits =>
      obtain ⟨schemas, hget, hmem, -⟩ := fits
      exact (hm.get? hget (by decide)).member hmem (named _ _ (.inr rfl) rfl)
  | additionalProperty part undeclared unfitting member => exact hm.get? member (by decide)
  | items part member => exact hm.get? member (by decide)
  | itemAt part member own => exact (hm.get? member (by decide)).item own
  | additionalItem part member beyond additional => exact hm.get? additional (by decide)

/-- Matches stay in sight along a trail. -/
theorem Trail.isSeen {start : Match} {all : List Match} (htrail : Trail root valid test start found)
    (hsub : found ⊆ all) (hstart : start.IsSeen root)
    (named : ∀ m ∈ all, ¬ m.IsNamedAsData all)
    (referred : ∀ m ∈ all, m.IsReferred root all → m.IsSeen root) :
    ∀ m ∈ found, m.IsSeen root := by
  induction htrail with
  | start =>
      intro m hm
      obtain rfl := List.mem_singleton.mp hm
      exact hstart
  | @visit found m before handed new ih =>
      have hbefore := ih fun m' hm' => hsub (.tail _ hm')
      intro x hx
      rcases List.mem_cons.mp hx with rfl | hx
      · -- the newest match was handed on by an older one, which is seen
        have hall : x ∈ all := hsub List.mem_cons_self
        obtain ⟨m', hm', hhanded⟩ := handed
        have hall' : m' ∈ all := hsub (.tail _ hm')
        have hsees := sees_of_handsOn (mem_subschemas_iff.mp (hbefore m' hm'))
          (handsOn_of_mem hhanded)
          (fun table name htable hpointer => by
            by_contra hdata
            exact named x hall
              ⟨m', hall', table, name, htable, Bool.not_eq_false _ ▸ hdata, hpointer⟩)
          (fun ref member isLocal leads hplace => mem_subschemas_iff.mp
            (referred x hall ⟨m', hall', ref, member, isLocal, leads, hplace⟩))
        exact mem_subschemas_iff.mpr hsees
      · exact hbefore x hx

/-- A match that is named as data is out of sight. -/
theorem not_isSeen_of_isNamedAsData {m : Match} (h : m.IsNamedAsData found) :
    ¬ m.IsSeen root := by
  obtain ⟨m', -, table, name, -, hdata, hpointer⟩ := h
  intro hseen
  have hsees := mem_subschemas_iff.mp hseen
  rw [hpointer] at hsees
  exact Bool.false_ne_true (hsees.notData.symm.trans hdata)

/-- All matches are seen exactly when none is named as data and the targets of references are. -/
theorem forall_isSeen_iff {document : Document.Node}
    (hfound : matchingWith valid test root document = .ok found) :
    (∀ m ∈ found, m.IsSeen root) ↔
      (∀ m ∈ found, ¬ m.IsNamedAsData found) ∧
        ∀ m ∈ found, m.IsReferred root found → m.IsSeen root := by
  constructor
  · intro hseen
    exact ⟨fun m hm hnamed => not_isSeen_of_isNamedAsData hnamed (hseen m hm),
      fun m hm _ => hseen m hm⟩
  · rintro ⟨named, referred⟩ m hm
    cases root with
    | obj members =>
        obtain ⟨htrail, -⟩ := exists_trail_of_matchingWith valid test members document hfound
        have hstart : (whole members document).IsSeen (.obj members) := List.mem_cons_self
        exact htrail.isSeen (fun x hx => List.mem_reverse.mp hx) hstart named referred m
          (List.mem_reverse.mpr hm)
    | _ =>
        obtain rfl : [] = found := by
          simpa [matchingWith, follow, fuel, Except.map] using hfound
        cases hm

/-- The target of a reference is seen when the reference is written as the enumeration writes
pointers. -/
theorem isSeen_of_isReferred {m : Match} (h : m.IsReferred root found)
    (hplain : Pointer.IsPlain m.pointer) : m.IsSeen root := by
  obtain ⟨m', -, ref, -, -, leads, -⟩ := h
  exact mem_subschemas_iff.mpr (sees_of_resolve hplain leads)

end Matching
end ModAtlas.Schema
