import EventRules.Proofs.Catalog.Table
import EventRules.Proofs.CommandLine.Batch

/-! The two layouts of a catalog: one document for all versions, and a directory with a file for
each version. Both give the table of the versions whose documents can be read, but they do not ask
the same of a family of documents. A version without event types is refused in a directory only, and
the file of the version without a name is not read, since a name that begins with its only dot has
no extension. -/
namespace EventRules

open Encoding Ordered Volume

/-- A list that is arranged like the images of another one: those of the other, arranged. -/
theorem exists_perm_of_perm_map {α β : Type} {f : α → β} {images : List β} {items : List α}
    (h : images.Perm (items.map f)) :
    ∃ arranged : List α, arranged.Perm items ∧ images = arranged.map f := by
  have hitems : List.Forall₂ (fun image item => image = f item) (items.map f) items :=
    List.forall₂_map_left_iff.mpr (List.forall₂_same.mpr fun _ _ => rfl)
  obtain ⟨arranged, himages, hperm⟩ := List.perm_comp_forall₂ h hitems
  refine ⟨arranged, hperm, ?_⟩
  rw [← List.forall₂_eq_eq_eq]
  exact List.forall₂_map_right_iff.mpr himages

namespace Path

/-- The name of a file of JSON, apart from its extension. -/
theorem splitName_json (name : Name) : splitName (name ++ Utf8.encode ".json") =
    if name = [] then (Utf8.encode ".json", none) else (name, some (Utf8.encode "json")) := by
  have hoctets : Utf8.encode ".json" = [dot, 0x6A, 0x73, 0x6F, 0x6E] := rfl
  have hextension : Utf8.encode "json" = [0x6A, 0x73, 0x6F, 0x6E] := rfl
  rw [hoctets, hextension]
  unfold splitName
  by_cases hempty : name = []
  · subst hempty
    decide
  · simp [List.dropWhile, List.takeWhile, hempty, dot]

theorem extension?_json {name : Name} (h : slash ∉ name) :
    extension? ⟨name ++ Utf8.encode ".json"⟩ =
      if name = [] then none else some (Utf8.encode "json") := by
  have hne (other : Name) (hlength : other.length < 5) : name ++ Utf8.encode ".json" ≠ other := by
    intro heq
    have hlengths := congrArg List.length heq
    rw [List.length_append] at hlengths
    have hjson : (Utf8.encode ".json").length = 5 := rfl
    omega
  have hslash : slash ∉ name ++ Utf8.encode ".json" := by
    rw [List.mem_append, not_or]
    exact ⟨h, by decide⟩
  have hname : fileName? ⟨name ++ Utf8.encode ".json"⟩ = some (name ++ Utf8.encode ".json") := by
    unfold fileName? components
    rw [pieces_name hslash]
    simp [hne [] (by decide), hne [dot] (by decide), hne [dot, dot] (by decide)]
  rw [extension?, hname, Option.bind_some, splitName_json]
  split <;> rfl

end Path

namespace Catalog

/-- The name of the file with the document of a version. -/
def fileName (version : String) : Path.Name := Utf8.encode (version ++ ".json")

variable {v : Volume} {directory : Path} {family members : List (String × Json)}
  {c loaded : Catalog}

/-- The directory has the document of the version in its file. -/
def HoldsFile (v : Volume) (directory : Path) (e : String × Json) : Prop :=
  ∃ octets, v.read (directory.join (fileName e.1)) = .ok octets ∧ parseFile octets = .ok e.2

/-- The directory has the documents of a family of versions in its files, and nothing else. -/
structure Holds (v : Volume) (directory : Path) (family : List (String × Json)) : Prop where
  lists : ∃ names, v.list directory = .ok names ∧ names.Perm (family.map fun e => fileName e.1)
  distinct : (keys family).Nodup
  noSlash : ∀ e ∈ family, '/' ∉ e.1.toList
  reads : ∀ e ∈ family, HoldsFile v directory e

/-- The versions with a name. -/
def named (family : List (String × Json)) : List (String × Json) :=
  family.filter fun e => e.1 ≠ ""

theorem mem_named {e : String × Json} : e ∈ named family ↔ e ∈ family ∧ e.1 ≠ "" := by
  simp [named]

theorem keys_named_nodup (h : (keys family).Nodup) : (keys (named family)).Nodup :=
  h.sublist (List.filter_sublist.map _)

theorem encode_eq_nil_iff {version : String} : Utf8.encode version = [] ↔ version = "" :=
  Utf8.encode_injective.eq_iff (b := "")

/-- The files that are read are those of the versions with a name. -/
theorem exists_versionFiles {names : List Path.Name}
    (h : names.Perm (family.map fun e => fileName e.1)) (hslash : ∀ e ∈ family, '/' ∉ e.1.toList) :
    ∃ arranged : List (String × Json), arranged.Perm (named family) ∧
      versionFiles names = arranged.map fun e => fileName e.1 := by
  have hextension : ∀ e ∈ family,
      (Path.extension? ⟨fileName e.1⟩ == some (Utf8.encode "json")) = decide (e.1 ≠ "") := by
    intro e he
    have hname : Path.slash ∉ Utf8.encode e.1 := fun hmem =>
      hslash e he (Path.slash_mem_encode_iff.mp hmem)
    rw [fileName, Utf8.encode_append, Path.extension?_json hname]
    by_cases hempty : e.1 = "" <;> simp [encode_eq_nil_iff, hempty]
  have hfilter := h.filter fun name => Path.extension? ⟨name⟩ == some (Utf8.encode "json")
  rw [List.filter_map] at hfilter
  apply exists_perm_of_perm_map
  unfold named
  rw [← List.filter_congr hextension]
  exact (List.mergeSort_perm _ _).trans hfilter

theorem addVersions_cons {e : String × Json} (hne : e.1 ≠ "") (h : HoldsFile v directory e)
    (rest : List Path.Name) :
    ((addVersions directory (fileName e.1 :: rest) c : StateM Volume _) v).1 = .ok loaded ↔
      ∃ types, eventTypesOfJson (directory.join (fileName e.1)).display e.2 = .ok types ∧
        ((addVersions directory rest (c.withVersion e.1 types) : StateM Volume _) v).1 =
          .ok loaded := by
  obtain ⟨octets, hoctets, hparse⟩ := h
  have hfile : (Host.readFile (directory.join (fileName e.1)) : StateM Volume _) v =
      (.ok octets, v) := congrArg (·, v) hoctets
  have hread : (readJson (directory.join (fileName e.1)) : StateM Volume _) v =
      (.ok e.2, v) := by
    rw [readJson, run_bind, hfile]
    exact congrArg (·, v) hparse
  have hversion : Utf8.text? (Path.splitName (fileName e.1)).1 = some e.1 := by
    rw [fileName, Utf8.encode_append, Path.splitName_json, if_neg (mt encode_eq_nil_iff.mp hne)]
    exact Utf8.text?_encode e.1
  rw [addVersions, hversion]
  dsimp only
  rw [run_bind, hread]
  dsimp only
  cases eventTypesOfJson (directory.join (fileName e.1)).display e.2 with
  | error fault =>
    show Except.error fault = Except.ok loaded ↔ _
    simp
  | ok types => simp

/-- Files are added to a catalog when each of them declares some event type. -/
theorem addVersions_eq_ok (h : ∀ e ∈ members, e.1 ≠ "" ∧ HoldsFile v directory e) :
    ((addVersions directory (members.map fun e => fileName e.1) c : StateM Volume _) v).1 =
        .ok loaded ↔
      (∀ e ∈ members, ∃ types, types ≠ [] ∧ Declares e.2 types) ∧
        loaded = ⟨(members.filterMap version?).foldl
          (fun table entry => insertSorted entry.1 entry.2 table) c.versions⟩ := by
  induction members generalizing c with
  | nil =>
    have hrun : ((addVersions directory [] c : StateM Volume _) v).1 = .ok c := rfl
    rw [List.map_nil, hrun]
    simp [eq_comm]
  | cons e rest ih =>
    obtain ⟨⟨hne, hfile⟩, hrest⟩ := List.forall_mem_cons.mp h
    rw [List.map_cons, addVersions_cons hne hfile, List.forall_mem_cons]
    simp only [ih hrest, eventTypesOfJson_eq_ok]
    constructor
    · rintro ⟨read, ⟨hdeclares, hread⟩, hall, hloaded⟩
      refine ⟨⟨hdeclares, hall⟩, ?_⟩
      rw [List.filterMap_cons, version?, hread]
      exact hloaded
    · rintro ⟨⟨⟨types, hne, hdeclares⟩, hall⟩, hloaded⟩
      have hread := eventTypes?_of_declares hdeclares
      refine ⟨_, ⟨⟨types, hne, hdeclares⟩, hread⟩, hall, ?_⟩
      rw [List.filterMap_cons, version?, hread] at hloaded
      exact hloaded

/-- A directory is loaded when each version with a name declares some event type, and then gives the
catalog of these versions. -/
theorem load_eq_ok (h : Holds v directory family) :
    ((load directory : StateM Volume _) v).1 = .ok c ↔
      (∀ e ∈ named family, ∃ types, types ≠ [] ∧ Declares e.2 types) ∧
        c = ofFamily (named family) := by
  obtain ⟨names, hnames, hperm⟩ := h.lists
  obtain ⟨arranged, harranged, hfiles⟩ := exists_versionFiles hperm h.noSlash
  have hdirectory : (Host.isDirectory directory : StateM Volume _) v = (true, v) :=
    congrArg (·, v) (isDirectory_of_list hnames)
  have hlist : (Host.listDirectory directory : StateM Volume _) v = (.ok names, v) :=
    congrArg (·, v) hnames
  have hholds : ∀ e ∈ arranged, e.1 ≠ "" ∧ HoldsFile v directory e := by
    intro e he
    obtain ⟨hmem, hne⟩ := mem_named.mp (harranged.subset he)
    exact ⟨hne, h.reads e hmem⟩
  rw [load, run_bind, hdirectory]
  dsimp only
  rw [if_pos rfl, run_bind, hlist]
  dsimp only
  rw [hfiles, addVersions_eq_ok hholds, ← ofFamily_perm harranged (keys_named_nodup h.distinct)]
  refine and_congr_left fun _ => ?_
  simp only [harranged.mem_iff]

/-- The results are alike: both are catalogs, with the same event types for each version, or neither
is one. -/
def Agree (a b : Except Fault Catalog) : Prop :=
  ((∃ c, a = .ok c) ↔ ∃ c, b = .ok c) ∧
    ∀ c d, a = .ok c → b = .ok d →
      ∀ version eventType, c.contains version eventType = d.contains version eventType

/-- Where the documents without event types are those of the version without a name, both layouts
ask the same of the family. -/
theorem declares_iff_of_empty (h : ∀ e ∈ family, (e.2 = .object [] ↔ e.1 = "")) :
    (∀ e ∈ named family, ∃ types, types ≠ [] ∧ Declares e.2 types) ↔
      ∀ e ∈ family, ∃ types, Declares e.2 types := by
  constructor
  · intro hall e he
    by_cases hname : e.1 = ""
    · rw [(h e he).mpr hname]
      exact ⟨[], declares_empty⟩
    · obtain ⟨types, -, htypes⟩ := hall e (mem_named.mpr ⟨he, hname⟩)
      exact ⟨types, htypes⟩
  · intro hall e he
    obtain ⟨he, hname⟩ := mem_named.mp he
    obtain ⟨types, htypes⟩ := hall e he
    exact ⟨types, fun hnil => hname ((h e he).mp (htypes.eq_empty_iff.mpr hnil)), htypes⟩

/-- The version without a name, if it declares no event type, adds nothing to a catalog. -/
theorem contains_named (hdistinct : (keys family).Nodup)
    (hall : ∀ e ∈ family, ∃ types, Declares e.2 types)
    (h : ∀ e ∈ family, e.1 = "" → e.2 = .object []) (version eventType : String) :
    (ofFamily (named family)).contains version eventType =
      (ofFamily family).contains version eventType := by
  rw [Bool.eq_iff_iff, contains_ofFamily hdistinct hall,
    contains_ofFamily (keys_named_nodup hdistinct) fun e he => hall e (mem_named.mp he).1]
  refine exists₂_congr fun document types => and_congr_left fun ⟨htypes, heventType⟩ => ?_
  rw [mem_named]
  refine and_iff_left_of_imp fun hmem hname => ?_
  have hnil := htypes.eq_empty_iff.mp (h _ hmem hname)
  rw [hnil] at heventType
  exact List.not_mem_nil heventType

/-- Catalogs that are alike come from a family whose documents without event types are those of the
version without a name. -/
theorem empty_iff_of_contains (hdistinct : (keys family).Nodup)
    (hnamed : ∀ e ∈ named family, ∃ types, types ≠ [] ∧ Declares e.2 types)
    (hall : ∀ e ∈ family, ∃ types, Declares e.2 types)
    (hcontains : ∀ version eventType, (ofFamily (named family)).contains version eventType =
      (ofFamily family).contains version eventType) :
    ∀ e ∈ family, (e.2 = .object [] ↔ e.1 = "") := by
  rintro ⟨version, document⟩ he
  constructor
  · intro hempty
    by_contra hname
    obtain ⟨types, hne, htypes⟩ := hnamed _ (mem_named.mpr ⟨he, hname⟩)
    exact hne (htypes.eq_empty_iff.mp hempty)
  · rintro rfl
    obtain ⟨types, htypes⟩ := hall _ he
    rw [htypes.eq_empty_iff]
    by_contra hne
    obtain ⟨first, rest, rfl⟩ := List.exists_cons_of_ne_nil hne
    -- an event type of the version without a name is in the one catalog only
    have hwhole : (ofFamily family).contains "" first.1 :=
      (contains_ofFamily hdistinct hall).mpr ⟨document, _, he, htypes, List.mem_cons_self⟩
    rw [← hcontains] at hwhole
    obtain ⟨document, types, hmem, -⟩ :=
      (contains_ofFamily (keys_named_nodup hdistinct)
        fun e he => hall e (mem_named.mp he).1).mp hwhole
    exact (mem_named.mp hmem).2 rfl

/-- A directory is loaded when every version with a name declares some event type, and one document
for all versions is read when every version declares event types, if any. So the two layouts of a
family agree when both refuse it, or when the version without a name, and no other one, has the
empty document; and with no such version and no such document they give the same catalog. -/
theorem layouts_exact (h : Holds v directory family) (hsome : family ≠ []) (source : String) :
    let loaded := ((load directory : StateM Volume _) v).1
    let whole := ofJson source (.object family)
    ((∃ c, loaded = .ok c) ↔
      ∀ e ∈ family, e.1 ≠ "" → ∃ types, types ≠ [] ∧ Declares e.2 types) ∧
    ((∃ c, whole = .ok c) ↔ ∀ e ∈ family, ∃ types, Declares e.2 types) ∧
    (Agree loaded whole ↔
      ((¬ ∃ c, loaded = .ok c) ∧ ¬ ∃ c, whole = .ok c) ∨
        ∀ e ∈ family, (e.2 = .object [] ↔ e.1 = "")) ∧
    ((∀ e ∈ family, e.1 ≠ "" ∧ e.2 ≠ .object []) → ∀ c, loaded = .ok c ↔ whole = .ok c) := by
  intro loaded whole
  have hloaded (c : Catalog) : loaded = .ok c ↔
      (∀ e ∈ named family, ∃ types, types ≠ [] ∧ Declares e.2 types) ∧
        c = ofFamily (named family) := load_eq_ok h
  have hwhole (c : Catalog) : whole = .ok c ↔
      (∀ e ∈ family, ∃ types, Declares e.2 types) ∧ c = ofFamily family := ofJson_eq_ok hsome
  unfold Agree
  simp only [hloaded, hwhole, exists_and_left, exists_eq, and_true]
  refine ⟨by simp only [mem_named, and_imp], trivial, ⟨?_, ?_⟩, fun hplain c => ?_⟩
  · rintro ⟨hsame, hcontains⟩
    by_cases hall : ∀ e ∈ family, ∃ types, Declares e.2 types
    · exact .inr (empty_iff_of_contains h.distinct (hsame.mpr hall) hall
        (hcontains _ _ ⟨hsame.mpr hall, rfl⟩ ⟨hall, rfl⟩))
    · exact .inl ⟨fun hnamed => hall (hsame.mp hnamed), hall⟩
  · rintro (⟨hnamed, hall⟩ | hempty)
    · exact ⟨iff_of_false hnamed hall, fun c d hc => absurd hc.1 hnamed⟩
    · refine ⟨declares_iff_of_empty hempty, fun c d hc hd => ?_⟩
      rw [hc.2, hd.2]
      exact contains_named h.distinct hd.1 fun e he => (hempty e he).mpr
  · have hnamed : named family = family := List.filter_eq_self.mpr fun e he => by
      simpa using (hplain e he).1
    have hempty : ∀ e ∈ family, (e.2 = .object [] ↔ e.1 = "") := fun e he =>
      iff_of_false (hplain e he).2 (hplain e he).1
    rw [declares_iff_of_empty hempty, hnamed]

/-- A file with a text that can be parsed. -/
theorem holdsFile_of_text {e : String × Json} (text : String)
    (hread : v.read (directory.join (fileName e.1)) = .ok (Utf8.encode text))
    (hparse : Json.parse text = .ok e.2) : HoldsFile v directory e := by
  refine ⟨_, hread, ?_⟩
  rw [parseFile, Utf8.decode_eq_ok_iff.mpr rfl]
  dsimp only
  rw [hparse]

/-- Two versions, one of which has an event type without fields. -/
theorem layouts_exact_two :
    let first := Json.object [("s", .ofTexts ["m"])]
    let second := Json.object [("f", .ofTexts [])]
    let family := [("4.1", first), ("5.3", second)]
    let v : Volume :=
      { files := [(["catalog", "5.3.json"].map Utf8.encode, Utf8.encode second.compact),
          (["catalog", "4.1.json"].map Utf8.encode, Utf8.encode first.compact)] }
    Holds v (.ofText "catalog") family ∧ family ≠ [] ∧
      ∃ c, ((load (.ofText "catalog") : StateM Volume _) v).1 = .ok c ∧
        ofJson "catalog.json" (.object family) = .ok c := by
  intro first second family v
  have hfirst : Json.parse first.compact = .ok first := by
    dsimp only [first]
    with_unfolding_all rfl
  have hsecond : Json.parse second.compact = .ok second := by
    dsimp only [second]
    with_unfolding_all rfl
  have hholds : Holds v (.ofText "catalog") family := by
    refine ⟨⟨["5.3.json", "4.1.json"].map Utf8.encode, by decide +kernel, List.Perm.swap _ _ _⟩,
      by decide +kernel, by decide +kernel,
      List.forall_mem_cons.mpr ⟨?_, List.forall_mem_singleton.mpr ?_⟩⟩
    · exact holdsFile_of_text _ (by decide +kernel) hfirst
    · exact holdsFile_of_text _ (by decide +kernel) hsecond
  have hsome : family ≠ [] := List.cons_ne_nil _ _
  obtain ⟨-, hread, -, hsame⟩ := layouts_exact hholds hsome "catalog.json"
  have hdeclares : ∀ e ∈ family, ∃ types, Declares e.2 types :=
    List.forall_mem_cons.mpr ⟨⟨[("s", ["m"])], rfl, by simp⟩,
      List.forall_mem_singleton.mpr ⟨[("f", [])], rfl, by simp⟩⟩
  obtain ⟨c, hc⟩ := hread.mpr hdeclares
  have hloaded := (hsame (by simp [family, first, second]) c).mpr hc
  exact ⟨hholds, hsome, c, hloaded, hc⟩

/-- A version without event types is refused in a directory and accepted in one document. -/
theorem empty_version_disagrees :
    let family := [("4.1", Json.object [])]
    let v : Volume :=
      { files := [(["catalog", "4.1.json"].map Utf8.encode,
          Utf8.encode (Json.object []).compact)] }
    Holds v (.ofText "catalog") family ∧
      (¬ ∃ c, ((load (.ofText "catalog") : StateM Volume _) v).1 = .ok c) ∧
      ∃ c, ofJson "catalog.json" (.object family) = .ok c := by
  intro family v
  have hholds : Holds v (.ofText "catalog") family := by
    refine ⟨⟨["4.1.json"].map Utf8.encode, by decide +kernel, .refl _⟩, by decide +kernel,
      by decide +kernel, List.forall_mem_singleton.mpr ?_⟩
    exact holdsFile_of_text (Json.object []).compact (by decide +kernel) (by with_unfolding_all rfl)
  refine ⟨hholds, ?_, _, (ofJson_eq_ok (List.cons_ne_nil _ _)).mpr
    ⟨List.forall_mem_singleton.mpr ⟨[], declares_empty⟩, rfl⟩⟩
  rintro ⟨c, hc⟩
  obtain ⟨types, hne, htypes⟩ := ((load_eq_ok hholds).mp hc).1 _
    (mem_named.mpr ⟨List.mem_singleton_self _, by decide⟩)
  exact hne (htypes.eq_empty_iff.mp rfl)

end Catalog

end EventRules
