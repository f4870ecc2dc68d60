import Mathlib.Data.List.DropRight
import ModAtlas.Proofs.Json.Merging
import ModAtlas.Proofs.Number.Decimal
import ModAtlas.Proofs.Schema.Scope

/-!
# Pointers as addresses

A pointer is written from the keys and indices on the way down to a value, so that no two values
inside another one have the same pointer. Following the pointer takes the same way, with one
exception: slashes at its start count once, and so the empty keys at the start of the way are passed
over. Hence the enumeration of subschemas gives each of them an address of its own, which leads back
to it unless it begins with two slashes.
-/

namespace ModAtlas.Schema
open ModAtlas.Json ModAtlas.Text

/-! ## Ways and pointers -/

namespace Pointer
variable {way way' : List String} {p : String}

/-- The pointer of a way down, given by the keys taken. -/
def along (way : List String) : String := way.foldl child ""

/-- The way that is taken along a pointer: the empty keys at the start are passed over, up to one
when there are no others. -/
def taken (way : List String) : List String :=
  match way.dropWhile (· == "") with
  | [] => [""]
  | rest => rest

/-- A pointer with one slash at its start. -/
def single (pointer : String) : String :=
  String.ofList ('/' :: pointer.toList.dropWhile (· == '/'))

/-- The characters of tokens, with a slash before each of them. -/
def spelled (way : List String) : List Char := way.flatMap fun key => '/' :: (escape key).toList

theorem toList_foldl_child (way : List String) (p : String) :
    (way.foldl child p).toList = p.toList ++ spelled way := by
  induction way generalizing p with
  | nil => simp [spelled]
  | cons key way ih =>
      rw [List.foldl_cons, ih, toList_child]
      simp [spelled]

theorem splitOn_spelled {u : List Char} (hu : '/' ∉ u) (way : List String) :
    splitOn '/' (u ++ spelled way) = u :: way.map fun key => (escape key).toList := by
  induction way generalizing u with
  | nil => simpa [spelled] using splitOn_of_not_mem hu
  | cons key way ih =>
      have hcons : spelled (key :: way) = '/' :: ((escape key).toList ++ spelled way) := rfl
      rw [hcons, splitOn_append, splitOn_of_not_mem hu, ih (slash_notMem_escape key)]
      rfl

/-- Different ways down from one pointer have different pointers. -/
theorem foldl_child_inj (h : way.foldl child p = way'.foldl child p) : way = way' := by
  have hlist := congrArg String.toList h
  rw [toList_foldl_child, toList_foldl_child, List.append_cancel_left_eq] at hlist
  have hsplit := congrArg (splitOn '/' ∘ ([] ++ ·)) hlist
  simp only [Function.comp_apply, splitOn_spelled (List.not_mem_nil (a := '/')), List.cons.injEq,
    true_and] at hsplit
  exact List.map_injective_iff.mpr
    (fun _ _ hkey => escape_injective (String.toList_injective hkey)) hsplit

theorem unescape_escape (key : String) : unescape (escape key).toList = key := by
  rw [unescape, escape, String.toList_ofList, unescapeChars_escape, String.ofList_toList]

/-- The tokens of a pointer are the keys of its way, but for those that are passed over. -/
theorem tokens_along (way : List String) : tokens (along way) = taken way := by
  rw [tokens, along, toList_foldl_child, String.toList_empty, List.nil_append]
  induction way with
  | nil => rfl
  | cons key way ih =>
      have hcons : spelled (key :: way) = '/' :: ((escape key).toList ++ spelled way) := rfl
      rw [hcons, List.dropWhile_cons_of_pos (by decide), taken]
      by_cases hkey : key = ""
      · subst hkey
        rw [List.dropWhile_cons_of_pos (by decide), ← taken, ← ih]
        rfl
      · -- the first character of the token is no slash, and nothing more is passed over
        rw [List.dropWhile_cons_of_neg (by simpa using hkey)]
        have hne : (escape key).toList ≠ [] := by
          intro hnil
          have hempty : escape key = escape "" := String.toList_injective (by rw [hnil]; rfl)
          exact hkey (escape_injective hempty)
        obtain ⟨c, cs, hescape⟩ := List.exists_cons_of_ne_nil hne
        have hslash : c ≠ '/' := by
          rintro rfl
          exact slash_notMem_escape key (hescape ▸ List.mem_cons_self)
        have hstays : ((escape key).toList ++ spelled way).dropWhile (· == '/') =
            (escape key).toList ++ spelled way := by
          rw [hescape, List.cons_append, List.dropWhile_cons_of_neg (by simpa using hslash)]
        rw [hstays, splitOn_spelled (slash_notMem_escape key), List.map_cons, List.map_map,
          unescape_escape]
        simp [Function.comp_def, unescape_escape]

/-- Along a pointer to a place below the root the keys of its way are followed, but for those that
are passed over. -/
theorem resolve_along (root : Value) (hne : way ≠ []) :
    resolve root (along way) = follow (taken way) root := by
  have hlong : along way ≠ "" := by
    intro hempty
    have hroot : along way = along [] := hempty
    exact hne (foldl_child_inj hroot)
  rw [resolve, if_neg (by simpa using hlong), tokens_along]

theorem taken_eq_self (hne : way ≠ []) (h : ¬ ['/', '/'] <+: (along way).toList) :
    taken way = way := by
  obtain ⟨key, rest, rfl⟩ := List.exists_cons_of_ne_nil hne
  by_cases hkey : key = ""
  · subst hkey
    cases rest with
    | nil => rfl
    | cons next rest =>
        refine absurd ?_ h
        rw [along, toList_foldl_child]
        exact ⟨(escape next).toList ++ spelled rest, rfl⟩
  · rw [taken, List.dropWhile_cons_of_neg (by simpa using hkey)]

/-- Further slashes at the start of a pointer do not count. -/
theorem resolve_single (root : Value) {pointer : String} (h : ['/', '/'] <+: pointer.toList) :
    resolve root pointer = resolve root (single pointer) := by
  obtain ⟨rest, hrest⟩ := h
  have hpointer : pointer ≠ "" := by
    rintro rfl
    cases hrest
  have hsingle : single pointer ≠ "" := by
    intro hempty
    have hlist := congrArg String.toList hempty
    rw [single, String.toList_ofList] at hlist
    cases hlist
  have htokens : tokens pointer = tokens (single pointer) := by
    rw [tokens, tokens, single, String.toList_ofList,
      List.dropWhile_cons_of_pos (by decide), List.dropWhile_idempotent]
  rw [resolve, resolve, if_neg (by simpa using hpointer), if_neg (by simpa using hsingle), htokens]

theorem follow_append {ts us : List String} {v w : Value} (h : follow ts v = .ok (some w)) :
    follow (ts ++ us) v = follow us w := by
  induction ts generalizing v with
  | nil =>
      obtain rfl : v = w := by simpa [follow] using h
      rfl
  | cons t ts ih =>
      rw [follow] at h
      rw [List.cons_append, follow]
      cases henter : enter t v with
      | error e => simp [henter, bind, Except.bind] at h
      | ok entered =>
          cases entered with
          | none => simp [henter, bind, Except.bind] at h
          | some x => exact ih (by simpa [henter, bind, Except.bind] using h)

end Pointer

/-! ## Values as they are held -/

/-- In an object no key is repeated, and an array has no more items than 63 bits count. -/
def IsHeldHere : Value → Prop
  | .obj members => (Members.keys members).Nodup
  | .arr items => items.length < 2 ^ 63
  | _ => True

instance : DecidablePred IsHeldHere
  | .obj members => inferInstanceAs (Decidable (Members.keys members).Nodup)
  | .arr items => inferInstanceAs (Decidable (items.length < 2 ^ 63))
  | .null | .bool _ | .num _ | .str _ => .isTrue trivial

/-- A value as a program holds it: no object in it repeats a key, and no array in it is too long
to be counted. -/
def IsHeld (v : Value) : Prop := ∀ p ∈ positions "" v, IsHeldHere p.2

instance (v : Value) : Decidable (IsHeld v) :=
  inferInstanceAs (Decidable (∀ p ∈ positions "" v, IsHeldHere p.2))

/-! ## From values to their pointers and back -/

section Ways
variable {p q : String} {v w : Value}

/-- The decimal of an index leads to the item. -/
theorem Pointer.enter_toString {items : List Value} {index : Nat} (hlength : items.length < 2 ^ 63)
    (own : items[index]? = some w) :
    Pointer.enter (toString index) (.arr items) = .ok (some w) := by
  have hlt : index < items.length := (List.getElem?_eq_some_iff.mp own).1
  have hdigits : (toString index).toList = Nat.toDigits 10 index := by
    rw [Nat.toString_eq_ofList_toDigits, String.toList_ofList]
  have hread : Number.readInt? (toString index).toList = some (index : Int) :=
    Number.readInt?_toString_natCast (hlt.trans hlength)
  have hindex : Pointer.isIndex (toString index) = true := by
    rw [Pointer.isIndex, Bool.and_eq_true, hdigits]
    refine ⟨by simp, List.all_eq_true.mpr fun c hc => ?_⟩
    have hvalue := Numeral.digitValue?_of_isDigit (Numeral.isDigit_of_mem_toDigits hc)
    rw [isDigitLike, isDecimalDigit, hvalue]
    rfl
  rw [Pointer.enter, if_pos hindex, hread]
  exact congrArg Except.ok own

/-- The pointer of what the enumeration comes to is that of a way, and the way leads there. -/
theorem Sees.exists_way (h : Sees p v q w) (hheld : ∀ x ∈ positions p v, IsHeldHere x.2) :
    ∃ way, q = way.foldl Pointer.child p ∧ Pointer.follow way v = .ok (some w) := by
  induction h with
  | self => exact ⟨[], rfl, rfl⟩
  | @member q key members w object mem notData ih =>
      obtain ⟨way, rfl, hfollow⟩ := ih
      have hkeys : (Members.keys members).Nodup := hheld _ (mem_positions_of_sees object)
      refine ⟨way ++ [key], by rw [List.foldl_append]; rfl, ?_⟩
      rw [Pointer.follow_append hfollow, Pointer.follow, Pointer.enter,
        Members.get?_of_mem hkeys mem]
      rfl
  | @item q items index w array own ih =>
      obtain ⟨way, rfl, hfollow⟩ := ih
      have hlength : items.length < 2 ^ 63 := hheld _ (mem_positions_of_sees array)
      refine ⟨way ++ [toString index], ?_, ?_⟩
      · rw [List.foldl_append, Pointer.item_eq_child]
        rfl
      · rw [Pointer.follow_append hfollow, Pointer.follow, Pointer.enter_toString hlength own]
        rfl

/-! ## Different pointers -/

theorem exists_key_of_mem_parts {x : String × Value} (h : x ∈ parts p v) :
    ∃ key, x.1 = Pointer.child p key := by
  cases v with
  | arr items =>
      obtain ⟨⟨w, i⟩, -, rfl⟩ := List.mem_map.mp h
      exact ⟨toString i, Pointer.item_eq_child p i⟩
  | obj members =>
      obtain ⟨⟨key, w⟩, -, rfl⟩ := List.mem_map.mp h
      exact ⟨key, rfl⟩
  | _ => cases h

theorem exists_way_of_mem_positions (h : (q, w) ∈ positions p v) :
    ∃ way : List String, q = way.foldl Pointer.child p := by
  induction p, v using positions_induction with
  | step p v ih =>
      rcases mem_positions_iff.mp h with heq | ⟨part, hpart, hin⟩
      · cases heq
        exact ⟨[], rfl⟩
      · obtain ⟨way, rfl⟩ := ih part hpart hin
        obtain ⟨key, hkey⟩ := exists_key_of_mem_parts hpart
        exact ⟨key :: way, by rw [hkey]; rfl⟩

theorem nodup_parts (hheld : IsHeldHere v) : ((parts p v).map Prod.fst).Nodup := by
  cases v with
  | arr items =>
      have hindices : (items.zipIdx.map Prod.snd).Nodup := by
        rw [List.zipIdx_map_snd]
        exact List.nodup_range'
      have hinj : Function.Injective (Pointer.item p) := by
        intro i j hij
        rw [Pointer.item_eq_child, Pointer.item_eq_child] at hij
        exact Number.toString_injective (Pointer.child_inj hij).2
      rw [parts, List.map_map]
      exact (List.map_map (g := Pointer.item p) (f := Prod.snd) ▸ hindices.map hinj)
  | obj members =>
      have hinj : Function.Injective (Pointer.child p) := fun _ _ h => (Pointer.child_inj h).2
      simpa [parts, Members.keys, List.map_map, Function.comp_def] using hheld.map hinj
  | _ => exact .nil

/-- No two values inside a value have the same pointer. -/
theorem nodup_positions (hheld : ∀ x ∈ positions p v, IsHeldHere x.2) :
    ((positions p v).map Prod.fst).Nodup := by
  induction p, v using positions_induction with
  | step p v ih =>
      -- what lies in a part has a way that begins with the key of the part
      have hway {x : String × Value} {q : String} (hx : x ∈ parts p v)
          (hq : q ∈ (positions x.1 x.2).map Prod.fst) :
          ∃ key way, x.1 = Pointer.child p key ∧ q = (key :: way).foldl Pointer.child p := by
        obtain ⟨⟨q, w⟩, hin, rfl⟩ := List.mem_map.mp hq
        obtain ⟨key, hkey⟩ := exists_key_of_mem_parts hx
        obtain ⟨way, hway⟩ := exists_way_of_mem_positions hin
        exact ⟨key, way, hkey, by rw [hway, hkey]; rfl⟩
      rw [positions_eq, List.map_cons, List.nodup_cons, List.map_flatMap, List.nodup_flatMap]
      refine ⟨fun hmem => ?_, fun x hx => ?_, ?_⟩
      · obtain ⟨x, hx, hq⟩ := List.mem_flatMap.mp hmem
        obtain ⟨key, way, -, hself⟩ := hway hx hq
        have hnone : [].foldl Pointer.child p = (key :: way).foldl Pointer.child p := hself
        cases Pointer.foldl_child_inj hnone
      · exact ih x hx fun y hy => hheld y (mem_positions_iff.mpr (.inr ⟨x, hx, hy⟩))
      · have hparts := nodup_parts (p := p) (hheld (p, v) (self_mem_positions p v))
        refine (List.pairwise_map.mp hparts).imp_of_mem fun {x y} hx hy hne q hqx hqy => hne ?_
        obtain ⟨key, way, hkey, hq⟩ := hway hx hqx
        obtain ⟨key', way', hkey', hq'⟩ := hway hy hqy
        cases Pointer.foldl_child_inj (hq.symm.trans hq')
        rw [hkey, hkey']

end Ways

mutual

/-- The enumeration gives its pointers in the order of the positions. -/
theorem subschemas_sublist (p : String) : ∀ v : Value,
    ((subschemas p v).map (·.pointer)).Sublist ((positions p v).map Prod.fst)
  | .obj members => (memberSubschemas_sublist p members).cons_cons p
  | .arr items => (itemSubschemas_sublist p 0 items).cons p
  | .null | .bool _ | .num _ | .str _ => List.nil_sublist _

theorem memberSubschemas_sublist (p : String) : ∀ members : Members,
    ((memberSubschemas p members).map (·.pointer)).Sublist
      ((memberPositions p members).map Prod.fst)
  | [] => List.nil_sublist _
  | (key, v) :: rest => by
      rw [memberSubschemas, memberPositions, List.map_append]
      split
      · exact (memberSubschemas_sublist p rest).trans (List.sublist_append_right _ _)
      · rw [List.map_append]
        exact (subschemas_sublist _ v).append (memberSubschemas_sublist p rest)

theorem itemSubschemas_sublist (p : String) : ∀ (index : Nat) (items : List Value),
    ((itemSubschemas p index items).map (·.pointer)).Sublist
      ((itemPositions p index items).map Prod.fst)
  | _, [] => List.nil_sublist _
  | index, v :: rest => by
      rw [itemSubschemas, itemPositions, List.map_append, List.map_append]
      exact (subschemas_sublist _ v).append (itemSubschemas_sublist p (index + 1) rest)

end

/-! ## Subschemas lead back -/

/-- The enumeration gives each subschema a pointer of its own. A pointer leads back to its
subschema unless it begins with two slashes; such a pointer leads where it leads with one slash
instead. -/
theorem subschemas_lead_back (schema : Value) (h : IsHeld schema) :
    ((subschemas "" schema).map (·.pointer)).Nodup ∧
      ∀ sub ∈ subschemas "" schema,
        (¬ ['/', '/'] <+: sub.pointer.toList →
          Pointer.resolve schema sub.pointer = .ok (some (.obj sub.members))) ∧
        (['/', '/'] <+: sub.pointer.toList →
          Pointer.resolve schema sub.pointer =
            Pointer.resolve schema (Pointer.single sub.pointer)) := by
  refine ⟨(nodup_positions h).sublist (subschemas_sublist "" schema), fun sub hsub => ⟨?_, ?_⟩⟩
  · intro hstart
    obtain ⟨way, hway, hfollow⟩ := (sees_of_mem hsub).exists_way h
    change sub.pointer = Pointer.along way at hway
    rw [hway] at hstart ⊢
    by_cases hroot : way = []
    · subst hroot
      exact hfollow
    · rw [Pointer.resolve_along schema hroot, Pointer.taken_eq_self hroot hstart, hfollow]
  · exact Pointer.resolve_single schema

/-- In a schema whose keys spell the marks of a pointer, hold slashes, are digits or nothing at
all, the last subschema of a list lies on such a way, and its pointer leads back. -/
theorem subschemas_lead_back_marks :
    let inner : Value := .obj [("0", .obj [("~1", .obj [("", .obj [("type", .str "string")])])])]
    let schema : Value := .obj [("a/b~", .arr [.bool true, inner]), ("default", .obj [])]
    let sub : Subschema := ⟨"/a~1b~0/1/0/~01/", [("type", .str "string")]⟩
    IsHeld schema ∧ sub ∈ subschemas "" schema ∧ ¬ ['/', '/'] <+: sub.pointer.toList ∧
      Pointer.resolve schema sub.pointer = .ok (some (.obj sub.members)) := by
  intro inner schema sub
  have hheld : IsHeld schema := by decide +kernel
  have hmem : sub ∈ subschemas "" schema := List.mem_of_getElem? (i := 4) (by rfl)
  have hstart : ¬ ['/', '/'] <+: sub.pointer.toList := by decide +kernel
  exact ⟨hheld, hmem, hstart, ((subschemas_lead_back schema hheld).2 sub hmem).1 hstart⟩

/-- A subschema behind an empty key is not led back to. -/
theorem not_forall_lead_back :
    ¬ ∀ schema : Value, IsHeld schema → ∀ sub ∈ subschemas "" schema,
      Pointer.resolve schema sub.pointer = .ok (some (.obj sub.members)) := by
  intro h
  let schema : Value := .obj [("", .obj [("a", .obj [])])]
  have hmem : (⟨"//a", []⟩ : Subschema) ∈ subschemas "" schema :=
    List.mem_of_getElem? (i := 2) (by rfl)
  have hback := h schema (by decide +kernel) ⟨"//a", []⟩ hmem
  have hnone : Pointer.resolve schema "//a" = .ok none := by rfl
  rw [hnone] at hback
  cases hback

end ModAtlas.Schema
