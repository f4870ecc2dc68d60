import ModAtlas.Proofs.Files.Suffixes
import ModAtlas.Proofs.Workspace.Population
import ModAtlas.Reference.Completion

/-!
# Labels that are members

An image is a member under the whole name of its file and under the name without the suffix that
was searched for. The labels are the stems of all members that look like image files. So a label
is a member, unless it is the stem of a member that was cut once already: then its file has two
image suffixes, one after the other.
-/

namespace ModAtlas.Reference
open ModAtlas.Files ModAtlas.Text ModAtlas.Workspace

/-! ## Names of images -/

/-- The suffixes of image files, in any case. -/
def IsImageSuffix (suffix : String) : Prop :=
  String.ofList (suffix.toList.map Char.toLower) = ".dds" ∨
    String.ofList (suffix.toList.map Char.toLower) = ".png"

instance (suffix : String) : Decidable (IsImageSuffix suffix) :=
  inferInstanceAs (Decidable (_ ∨ _))

theorem eq_dot_of_toLower {c : Char} (h : c.toLower = '.') : c = '.' := by
  unfold Char.toLower at h
  split at h
  · rename_i hupper
    have hval := congrArg (fun c : Char => c.val.toNat) h
    have hleast := UInt32.le_iff_toNat_le.mp hupper.1
    have hmost := UInt32.le_iff_toNat_le.mp hupper.2
    have hleast' : 'A'.val.toNat = 65 := rfl
    have hmost' : 'Z'.val.toNat = 90 := rfl
    have hshift : ('a'.val - 'A'.val).toNat = 32 := rfl
    have hdot : '.'.val.toNat = 46 := rfl
    simp only [UInt32.toNat_add, hshift, hdot] at hval
    omega
  · exact h

/-- A suffix of image files is a dot and three letters. -/
theorem IsImageSuffix.exists_letters {suffix : String} (h : IsImageSuffix suffix) :
    ∃ letters, suffix.toList = '.' :: letters ∧ letters.length = 3 ∧ '.' ∉ letters := by
  obtain ⟨lower, hlower, hlength, hdot⟩ : ∃ lower,
      suffix.toList.map Char.toLower = '.' :: lower ∧ lower.length = 3 ∧ '.' ∉ lower := by
    rcases h with h | h
    · exact ⟨['d', 'd', 's'], by simpa using congrArg String.toList h, rfl, by decide⟩
    · exact ⟨['p', 'n', 'g'], by simpa using congrArg String.toList h, rfl, by decide⟩
  obtain ⟨c, letters, hsuffix, hc, rfl⟩ := List.map_eq_cons_iff.mp hlower
  obtain rfl := eq_dot_of_toLower hc
  exact ⟨letters, hsuffix, by simpa using hlength,
    fun hin => hdot (List.mem_map.mpr ⟨'.', hin, rfl⟩)⟩

theorem IsImageSuffix.slash_notMem {suffix : String} (h : IsImageSuffix suffix) :
    '/' ∉ suffix.toList := by
  intro hin
  have hlower : '/' ∈ suffix.toList.map Char.toLower := List.mem_map.mpr ⟨'/', hin, rfl⟩
  rw [← String.toList_ofList (l := suffix.toList.map Char.toLower)] at hlower
  rcases h with h | h <;>
  · rw [h] at hlower
    revert hlower
    decide

theorem IsImageSuffix.append_inj {first suffix stem stem' : String} (h : IsImageSuffix first)
    (himage : IsImageSuffix suffix) (heq : stem ++ first = stem' ++ suffix) : first = suffix := by
  obtain ⟨letters, hletters, hlength, -⟩ := h.exists_letters
  obtain ⟨letters', hletters', hlength', -⟩ := himage.exists_letters
  rw [← String.toList_inj, String.toList_append, String.toList_append] at heq
  rw [← String.toList_inj]
  refine (List.append_inj' heq ?_).2
  rw [hletters, hletters', List.length_cons, List.length_cons, hlength, hlength']

theorem isImageName_iff {name : String} :
    isImageName name = true ↔ IsImageSuffix (Path.suffixOf (fileName name)) := by
  simp [isImageName, IsImageSuffix]

/-- The names of images with a stem are the stem and a suffix of image files. -/
theorem isImageName_and_stem_iff {name stem : String} (h : '/' ∉ name.toList) :
    isImageName name = true ∧ Path.stemOf (fileName name) = stem ↔
      stem ≠ "" ∧ ∃ suffix, IsImageSuffix suffix ∧ name = stem ++ suffix := by
  rw [isImageName_iff]
  constructor
  · rintro ⟨himage, rfl⟩
    have hsuffix : Path.suffixOf (fileName name) ≠ "" := by
      intro hnone
      rw [hnone] at himage
      revert himage
      decide
    obtain ⟨hstem, hname⟩ := Path.eq_append_of_suffixOf hsuffix
    have hself : fileName name = name := by
      rw [fileName_of_slash_notMem h] at hsuffix ⊢
      split
      · rename_i hnone
        rw [if_pos hnone] at hsuffix
        exact absurd rfl hsuffix
      · rfl
    exact ⟨hstem, _, himage, hself.symm.trans hname⟩
  · rintro ⟨hstem, suffix, himage, rfl⟩
    obtain ⟨letters, hletters, hlength, hdot⟩ := himage.exists_letters
    have hself : fileName (stem ++ suffix) = stem ++ suffix := by
      have hlong : 4 ≤ (stem ++ suffix).toList.length := by
        rw [String.toList_append, hletters, List.length_append, List.length_cons, hlength]
        omega
      rw [fileName_of_slash_notMem h, if_neg]
      rintro (hnone | hnone) <;>
      · rw [hnone] at hlong
        revert hlong
        decide
    obtain ⟨hsuffix, hstem'⟩ := Path.suffixOf_append hstem hletters
      (List.ne_nil_of_length_pos (by omega)) hdot
    rw [hself, hsuffix, hstem']
    exact ⟨himage, rfl⟩

/-! ## Members and labels of images -/

section Images
variable {t : Tree} {finder : Finder} {root language suffix label : String} {c : Category}

/-- Images are searched for by a suffix of image files, and keep their whole names. -/
theorem Category.exists_source (image : c.isImage = true) :
    ∃ suffix, c.source = .files suffix true ∧ IsImageSuffix suffix := by
  cases c with
  | texture => exact ⟨".dds", rfl, by decide⟩
  | brush => exact ⟨".png", rfl, by decide⟩
  | _ => cases image

/-- What is searched for by a suffix of image files ends with it. -/
theorem exists_eq_append {name : String} (h : finder.FindsName t root suffix name)
    (himage : IsImageSuffix suffix) : ∃ front, name = front ++ suffix := by
  obtain ⟨letters, hletters, hlength, -⟩ := himage.exists_letters
  have hslash : '/' ∉ suffix.toList := himage.slash_notMem
  obtain ⟨front, hfront⟩ := h.suffix_le hslash (by rw [hletters, List.length_cons]; omega)
  exact ⟨String.ofList front, by simp [← String.toList_inj, hfront]⟩

/-- An image is a member under the name of its file, and under that name without the suffix. -/
theorem mem_loadedMembers_iff (source : c.source = .files suffix true)
    (himage : IsImageSuffix suffix) :
    label ∈ loadedMembers (load t finder root language c) ↔
      finder.FindsName t root suffix label ∨ finder.FindsName t root suffix (label ++ suffix) := by
  have hnames (path : String) (hpath : finder.FindsName t root suffix (fileName path)) :
      label ∈ memberNames suffix true path ↔
        fileName path = label ∨ fileName path = label ++ suffix := by
    obtain ⟨front, hfront⟩ := exists_eq_append hpath himage
    have hends : endsWith (front ++ suffix).toList suffix.toList = true :=
      endsWith_iff.mpr (by simp)
    have hstem : String.ofList ((front ++ suffix).toList.take
        ((front ++ suffix).length - suffix.length)) = front := by
      rw [String.length_append, Nat.add_sub_cancel, String.toList_append, ← String.length_toList,
        List.take_left, String.ofList_toList]
    have hcut : front ++ suffix = label ++ suffix ↔ label = front := by
      rw [← String.toList_inj, String.toList_append, String.toList_append, List.append_left_inj,
        String.toList_inj, eq_comm]
    have hor : label = front ∨ label = front ++ suffix ↔ front ++ suffix = label ∨ label = front :=
      or_comm.trans (or_congr_left eq_comm)
    simpa only [memberNames, hfront, hends, hstem, hcut, if_true, List.mem_cons, List.not_mem_nil,
      or_false] using hor
  cases hfind : finder.find t root suffix with
  | error e => simp [load, source, loadFiles, hfind, loadedMembers, Finder.FindsName]
  | ok paths =>
      have hfound (name : String) : finder.FindsName t root suffix name ↔
          ∃ path ∈ paths, fileName path = name := by
        simp [Finder.FindsName, hfind]
      simp only [load, source, loadFiles, hfind, loadedMembers, mem_sortedDistinct,
        List.map_flatMap, List.map_map, List.mem_flatMap, Function.comp_def, List.map_id', hfound,
        ← exists_or, ← and_or_left]
      refine exists_congr fun path => and_congr_right fun hpath => hnames path ?_
      exact (hfound _).mpr ⟨path, hpath, rfl⟩

/-- The labels are what members leave without a suffix of image files. -/
theorem mem_labels_iff (image : c.isImage = true) {members : List String}
    (hslash : ∀ member ∈ members, '/' ∉ member.toList) :
    label ∈ labels c members ↔
      label ≠ "" ∧ ∃ first, IsImageSuffix first ∧ label ++ first ∈ members := by
  simp only [labels, image, if_true, mem_sortedDistinct, List.mem_map, List.mem_filter, and_assoc]
  constructor
  · rintro ⟨member, hmember, hname⟩
    obtain ⟨hne, first, hfirst, rfl⟩ := (isImageName_and_stem_iff (hslash _ hmember)).mp hname
    exact ⟨hne, first, hfirst, hmember⟩
  · rintro ⟨hne, first, hfirst, hmember⟩
    exact ⟨_, hmember, (isImageName_and_stem_iff (hslash _ hmember)).mpr ⟨hne, first, hfirst, rfl⟩⟩

/-- The labels of the images that are loaded are what the names of their files leave without the
suffix that was searched for, and without a further suffix of image files before it. -/
theorem mem_labels_loadedMembers_iff (image : c.isImage = true)
    (source : c.source = .files suffix true) (himage : IsImageSuffix suffix) :
    label ∈ labels c (loadedMembers (load t finder root language c)) ↔ label ≠ "" ∧
      (finder.FindsName t root suffix (label ++ suffix) ∨
        ∃ first, IsImageSuffix first ∧
          finder.FindsName t root suffix (label ++ first ++ suffix)) := by
  have hslash (member : String)
      (h : member ∈ loadedMembers (load t finder root language c)) : '/' ∉ member.toList := by
    rcases (mem_loadedMembers_iff source himage).mp h with h | h
    · exact h.slash_notMem
    · have hboth := h.slash_notMem
      rw [String.toList_append, List.mem_append, not_or] at hboth
      exact hboth.1
  simp only [mem_labels_iff image hslash, mem_loadedMembers_iff source himage]
  refine and_congr_right fun _ => ⟨?_, ?_⟩
  · rintro ⟨first, hfirst, hfound | hfound⟩
    · obtain ⟨front, hfront⟩ := exists_eq_append hfound himage
      obtain rfl := hfirst.append_inj himage hfront
      exact .inl hfound
    · exact .inr ⟨first, hfirst, hfound⟩
  · rintro (hfound | ⟨first, hfirst, hfound⟩)
    · exact ⟨suffix, himage, .inl hfound⟩
    · exact ⟨first, hfirst, .inr hfound⟩

/-- A label is what is left of a file name that has two suffixes of image files, and no file goes
by the label. -/
structure CutTwice (finder : Finder) (t : Tree) (root suffix label : String) : Prop where
  cut : label ≠ ""
  twice : ∃ first, IsImageSuffix first ∧ finder.FindsName t root suffix (label ++ first ++ suffix)
  uncut : ¬ finder.FindsName t root suffix label
  once : ¬ finder.FindsName t root suffix (label ++ suffix)

end Images

/-! ## Offered labels -/

/-- A label is offered that is no member exactly when the category is one of images, and the label
is left of a file name with two suffixes of image files, with no file that goes by the label. All
other labels are members. -/
theorem mem_labels_not_contains_iff (t : Tree) (finder : Finder) (root language : String)
    (s : MemberStore) {categories : List Category} {c : Category}
    (hc : c ∈ MemberStore.requested categories) (label : String) :
    let store := s.populate t finder root language (MemberStore.requested categories)
    (label ∈ labels c (store.members c) ∧ store.contains c label = false) ↔
      c.isImage = true ∧ ∃ suffix keepName, c.source = .files suffix keepName ∧
        CutTwice finder t root suffix label := by
  intro store
  have hmembers : store.members c = loadedMembers (load t finder root language c) := by
    rw [MemberStore.populate_members, if_pos hc]
  simp only [MemberStore.contains, hmembers, ← Bool.not_eq_true, List.contains_iff_mem]
  cases himage : c.isImage with
  | false => simp [labels, himage, sorted]
  | true =>
      obtain ⟨suffix, source, hsuffix⟩ := Category.exists_source himage
      rw [mem_labels_loadedMembers_iff himage source hsuffix, mem_loadedMembers_iff source hsuffix]
      constructor
      · rintro ⟨⟨hne, hlabel⟩, hnone⟩
        rw [not_or] at hnone
        exact ⟨rfl, suffix, true, source, hne, hlabel.resolve_left hnone.2, hnone.1, hnone.2⟩
      · rintro ⟨-, suffix', keepName, source', hne, htwice, huncut, honce⟩
        obtain ⟨rfl, -⟩ := Source.files.inj (source.symm.trans source')
        exact ⟨⟨hne, .inr htwice⟩, not_or.mpr ⟨huncut, honce⟩⟩

/-- A folder with a texture whose name has two suffixes of image files. -/
def doubledTree : Tree where
  root := .folder .full [("mod", .folder .full [("a.png.dds", .file [])])]
  workingFolder := .ofString "/"

theorem findsName_doubledTree (name : String) :
    (Finder.ofDepth 5).FindsName doubledTree "/mod" ".dds" name ↔ name = "a.png.dds" := by
  have hfind : (Finder.ofDepth 5).find doubledTree "/mod" ".dds" = .ok ["/mod/a.png.dds"] := by
    decide +kernel
  have hname : fileName "/mod/a.png.dds" = "a.png.dds" := by decide +kernel
  simp [Finder.FindsName, hfind, hname, eq_comm]

/-- Without its two suffixes the texture is offered, and is no member. -/
theorem mem_labels_not_contains_iff_doubled :
    let store := MemberStore.empty.populate doubledTree (.ofDepth 5) "/mod" "en"
      (MemberStore.requested [.texture])
    Category.texture ∈ MemberStore.requested [.texture] ∧
      "a" ∈ labels .texture (store.members .texture) ∧ store.contains .texture "a" = false ∧
      ¬ ("a.png" ∈ labels .texture (store.members .texture) ∧
        store.contains .texture "a.png" = false) := by
  intro store
  have hc : Category.texture ∈ MemberStore.requested [.texture] := by decide
  have hiff := mem_labels_not_contains_iff doubledTree (.ofDepth 5) "/mod" "en" .empty hc
  obtain ⟨hlabel, hcontains⟩ := (hiff "a").mpr ⟨rfl, ".dds", true, rfl, by decide,
    ⟨".png", by decide, (findsName_doubledTree _).mpr (by decide)⟩,
    fun h => absurd ((findsName_doubledTree _).mp h) (by decide),
    fun h => absurd ((findsName_doubledTree _).mp h) (by decide)⟩
  refine ⟨hc, hlabel, hcontains, fun hpng => ?_⟩
  obtain ⟨-, suffix, keepName, source, -, -, -, honce⟩ := (hiff "a.png").mp hpng
  obtain ⟨rfl, -⟩ := Source.files.inj source
  exact honce ((findsName_doubledTree _).mpr (by decide))

/-- Not every label that is offered is a member. -/
theorem not_forall_labels_contained : ¬ ∀ (t : Tree) (label : String),
    let store := MemberStore.empty.populate t (.ofDepth 5) "/mod" "en" [.texture]
    label ∈ labels .texture (store.members .texture) → store.contains .texture label = true := by
  intro h
  have hsuffix : IsImageSuffix ".dds" := by decide
  have hsource : Category.texture.source = .files ".dds" true := rfl
  have himage : Category.texture.isImage = true := rfl
  have hmember := h doubledTree "a"
  simp only [MemberStore.contains, List.contains_iff_mem, MemberStore.populate_members,
    List.mem_singleton_self, if_true, mem_labels_loadedMembers_iff himage hsource hsuffix,
    mem_loadedMembers_iff hsource hsuffix, findsName_doubledTree] at hmember
  exact absurd (hmember ⟨by decide, .inr ⟨".png", by decide, by decide⟩⟩) (by decide)

end ModAtlas.Reference
