import EventRules.Host.Volume
import EventRules.Proofs.Host.Path
import EventRules.Proofs.Ordered

/-! Files that are written to a volume. A file that is put somewhere stands in nobody's way: what
could be entered can be entered after it, so paths lead where they led before. Files put into one
directory one after the other leave the last of each name there, and touch nothing else. -/
namespace EventRules.Volume

open Encoding

variable {v w : Volume} {place other : List Path.Name} {path : Path} {content : String}
  {octets : List UInt8}

theorem bind_eq_ok {ε α β : Type} {x : Except ε α} {f : α → Except ε β} {b : β} :
    x >>= f = .ok b ↔ ∃ a, x = .ok a ∧ f a = .ok b := by
  cases x <;> simp [bind, Except.bind]

theorem lookup_filter_ne (files : List (List Path.Name × List UInt8)) :
    (files.filter fun entry => entry.1 ≠ place).lookup other =
      if other = place then none else files.lookup other := by
  induction files with
  | nil => simp
  | cons entry rest ih =>
    by_cases hentry : entry.1 = place
    · rw [List.filter_cons_of_neg (by simpa using hentry), ih, Ordered.lookup_cons_eq, hentry]
      split <;> rfl
    · rw [List.filter_cons_of_pos (by simpa using hentry), Ordered.lookup_cons_eq,
        Ordered.lookup_cons_eq, ih]
      grind

theorem fileAt?_putFile : (v.putFile place octets).fileAt? other =
    if other = place then some octets else v.fileAt? other := by
  show (v.files.filter (fun entry => entry.1 ≠ place) ++ [(place, octets)]).lookup other = _
  rw [List.lookup_append, lookup_filter_ne, Ordered.lookup_cons_eq, List.lookup_nil]
  split
  · rfl
  · exact Option.or_none

theorem enter_eq_ok : v.enter place = .ok other ↔ v.isDirectoryAt place ∧ other = place := by
  unfold enter
  by_cases hdirectory : v.isDirectoryAt place
  · have hfile : ¬ (v.fileAt? place).isSome := by
      unfold isDirectoryAt at hdirectory
      simp_all
    simp [hfile, hdirectory, eq_comm]
  · split <;> simp [hdirectory]

theorem mem_places_putFile : other ∈ (v.putFile place octets).places ↔
    other ∈ v.places ∨ other = place := by
  simp only [places, putFile, List.map_append, List.mem_append, List.mem_cons, List.mem_map,
    List.mem_filter]
  grind

theorem isDirectoryAt_iff : v.isDirectoryAt place ↔
    v.fileAt? place = none ∧ ∃ known ∈ v.places, place <+: known := by
  simp [isDirectoryAt]

/-- Only a directory can be listed. -/
theorem isDirectory_of_list {names : List Path.Name} (h : v.list path = .ok names) :
    v.isDirectory path := by
  obtain ⟨place, hplace, h⟩ := bind_eq_ok.mp h
  obtain ⟨entered, hentered, -⟩ := bind_eq_ok.mp h
  unfold isDirectory
  rw [hplace]
  exact (enter_eq_ok.mp hentered).1

/-- A file is no directory, and a new directory lies around it. -/
theorem isDirectoryAt_putFile : (v.putFile place octets).isDirectoryAt other ↔
    other ≠ place ∧ (v.isDirectoryAt other ∨ v.fileAt? other = none ∧ other <+: place) := by
  simp only [isDirectoryAt_iff, fileAt?_putFile, mem_places_putFile]
  by_cases h : other = place
  · simp [h]
  · simp only [h, if_false, ne_eq, not_false_eq_true, true_and]
    grind

/-- What can be entered in the one volume can be entered in the other, and paths start at the same
place. -/
structure Within (v w : Volume) : Prop where
  start : w.workingDirectory = v.workingDirectory
  enters : ∀ place, v.isDirectoryAt place → w.isDirectoryAt place

namespace Within

theorem follow (h : v.Within w) {pieces : List Path.Name} (hv : v.follow place pieces = .ok other) :
    w.follow place pieces = .ok other := by
  induction pieces generalizing place with
  | nil => exact hv
  | cons piece rest ih =>
    unfold Volume.follow at hv ⊢
    obtain ⟨directory, hentered, hafter⟩ := bind_eq_ok.mp hv
    obtain ⟨next, hstep, hrest⟩ := bind_eq_ok.mp hafter
    obtain ⟨hdirectory, rfl⟩ := enter_eq_ok.mp hentered
    have hw := enter_eq_ok.mpr ⟨h.enters _ hdirectory, rfl⟩
    exact bind_eq_ok.mpr ⟨_, hw, bind_eq_ok.mpr ⟨next, hstep, ih hrest⟩⟩

theorem locate (h : v.Within w) (hv : v.locate path = .ok place) : w.locate path = .ok place := by
  obtain ⟨_, hpath, hv⟩ := bind_eq_ok.mp hv
  have hstart : w.start path = v.start path := by
    unfold Volume.start
    rw [h.start]
  refine bind_eq_ok.mpr ⟨_, hpath, ?_⟩
  rw [hstart]
  exact h.follow hv

end Within

/-- A file where no directory is stands in nobody's way. -/
theorem within_putFile (h : ¬ v.isDirectoryAt place) : v.Within (v.putFile place octets) where
  start := rfl
  enters _ hother := isDirectoryAt_putFile.mpr ⟨fun heq => h (heq ▸ hother), .inl hother⟩

/-- The path names a place for a file: no directory is there. -/
structure Names (v : Volume) (path : Path) (place : List Path.Name) : Prop where
  file : path.pieces.getLast? ≠ some []
  locates : v.locate path = .ok place
  free : ¬ v.isDirectoryAt place

theorem dropSlashes_eq_self {pieces : List Path.Name} (h : pieces.getLast? ≠ some []) :
    Path.dropSlashes pieces = pieces := by
  unfold Path.dropSlashes
  cases hreverse : pieces.reverse with
  | nil => simpa using hreverse.symm
  | cons piece rest =>
    have hpiece : piece ≠ [] := fun heq => h (by
      rw [← List.head?_reverse, hreverse, heq]
      rfl)
    rw [List.dropWhile_cons_of_neg (by simpa using hpiece), ← hreverse, List.reverse_reverse]

/-- A file is written where its path leads. -/
theorem write_eq_ok : v.write path content = .ok w ↔
    ∃ place, v.Names path place ∧ w = v.putFile place (Utf8.encode content) := by
  by_cases hfile : path.pieces.getLast? = some []
  · refine iff_of_false (fun h => ?_) fun ⟨_, hnames, _⟩ => hnames.file hfile
    obtain ⟨_, -, h⟩ := bind_eq_ok.mp h
    obtain ⟨place, -, h⟩ := bind_eq_ok.mp h
    rw [if_pos (.inl hfile)] at h
    cases h
  · unfold write
    rw [dropSlashes_eq_self hfile]
    constructor
    · intro h
      obtain ⟨_, hpath, h⟩ := bind_eq_ok.mp h
      obtain ⟨place, hplace, h⟩ := bind_eq_ok.mp h
      split at h
      · cases h
      · next hfree =>
        obtain rfl := Except.ok.inj h
        exact ⟨place, ⟨hfile, bind_eq_ok.mpr ⟨_, hpath, hplace⟩, fun hd => hfree (.inr hd)⟩, rfl⟩
    · rintro ⟨place, hnames, rfl⟩
      obtain ⟨_, hpath, hplace⟩ := bind_eq_ok.mp hnames.locates
      refine bind_eq_ok.mpr ⟨_, hpath, bind_eq_ok.mpr ⟨place, hplace, ?_⟩⟩
      rw [if_neg (not_or.mpr ⟨hfile, hnames.free⟩)]
      rfl

/-- What is read under a path is the file at its place. -/
theorem read_eq (hplace : v.locate path = .ok place) (hfile : v.fileAt? place = some octets) :
    v.read path = .ok octets := by
  unfold read
  rw [hplace]
  dsimp only [bind, Except.bind]
  rw [hfile]

/-- Files put into a directory one after the other, each with its name and its text. -/
def putAll (directory : List Path.Name) (pairs : List (String × String)) (v : Volume) : Volume :=
  pairs.foldl (fun v pair =>
    v.putFile (directory ++ [Utf8.encode pair.1]) (Utf8.encode pair.2)) v

variable {directory : List Path.Name} {pairs : List (String × String)} {name : Path.Name}

theorem fileAt?_putAll_of_notMem
    (h : ∀ n ∈ Ordered.keys pairs, place ≠ directory ++ [Utf8.encode n]) :
    (v.putAll directory pairs).fileAt? place = v.fileAt? place := by
  induction pairs generalizing v with
  | nil => rfl
  | cons pair rest ih =>
    rw [Ordered.keys_cons] at h
    show ((v.putFile _ _).putAll directory rest).fileAt? place = _
    rw [ih fun n hn => h n (List.mem_cons_of_mem _ hn), fileAt?_putFile,
      if_neg (h pair.1 List.mem_cons_self)]

/-- The last of each name is left. -/
theorem fileAt?_putAll {name text : String} (h : Ordered.IsLast (name, text) pairs) :
    (v.putAll directory pairs).fileAt? (directory ++ [Utf8.encode name]) =
      some (Utf8.encode text) := by
  obtain ⟨front, back, rfl, hback⟩ := h
  have hsplit : v.putAll directory (front ++ (name, text) :: back) =
      ((v.putAll directory front).putFile (directory ++ [Utf8.encode name])
        (Utf8.encode text)).putAll directory back := by
    simp [putAll]
  rw [hsplit, fileAt?_putAll_of_notMem, fileAt?_putFile, if_pos rfl]
  intro n hn heq
  obtain rfl : name = n := Utf8.encode_injective (by simpa using heq)
  exact hback hn

theorem eq_of_begins {other : Path.Name} (h : directory ++ [name] <+: directory ++ [other]) :
    name = other := by
  have heq := h.eq_of_length (by simp)
  simpa using heq

/-- A file put into a directory makes no other name in it a directory. -/
theorem not_isDirectoryAt_putFile {other : Path.Name}
    (h : ¬ v.isDirectoryAt (directory ++ [name])) :
    ¬ (v.putFile (directory ++ [other]) octets).isDirectoryAt (directory ++ [name]) := by
  rw [isDirectoryAt_putFile]
  rintro ⟨hne, hdirectory | ⟨-, hprefix⟩⟩
  · exact h hdirectory
  · exact hne (by rw [eq_of_begins hprefix])

/-- A path into a directory leads where it led before a file was put into it. -/
theorem Names.putFile {other : Path.Name} (h : v.Names path (directory ++ [name]))
    (hother : ¬ v.isDirectoryAt (directory ++ [other])) :
    (v.putFile (directory ++ [other]) octets).Names path (directory ++ [name]) where
  file := h.file
  locates := (within_putFile hother).locate h.locates
  free := not_isDirectoryAt_putFile h.free

theorem Names.putAll (h : v.Names path (directory ++ [name]))
    (hfree : ∀ n ∈ Ordered.keys pairs, ¬ v.isDirectoryAt (directory ++ [Utf8.encode n])) :
    (v.putAll directory pairs).Names path (directory ++ [name]) := by
  induction pairs generalizing v with
  | nil => exact h
  | cons pair rest ih =>
    rw [Ordered.keys_cons] at hfree
    have hfirst := hfree pair.1 List.mem_cons_self
    apply ih (h.putFile hfirst)
    intro n hn
    exact not_isDirectoryAt_putFile (hfree n (List.mem_cons_of_mem _ hn))

theorem follow_concat {pieces : List Path.Name} {piece : Path.Name}
    (h : v.follow place (pieces ++ [piece]) = .ok other) :
    ∃ directory, v.follow place pieces = .ok directory ∧ step directory piece = .ok other := by
  induction pieces generalizing place with
  | nil =>
    obtain ⟨directory, hentered, hnext⟩ := bind_eq_ok.mp h
    obtain ⟨next, hstep, hrest⟩ := bind_eq_ok.mp hnext
    obtain ⟨-, rfl⟩ := enter_eq_ok.mp hentered
    obtain rfl := Except.ok.inj hrest
    exact ⟨directory, rfl, hstep⟩
  | cons first rest ih =>
    obtain ⟨entered, hentered, hnext⟩ := bind_eq_ok.mp h
    obtain ⟨next, hstep, hrest⟩ := bind_eq_ok.mp hnext
    obtain ⟨directory, hfollow, hlast⟩ := ih hrest
    exact ⟨directory,
      bind_eq_ok.mpr ⟨entered, hentered, bind_eq_ok.mpr ⟨next, hstep, hfollow⟩⟩, hlast⟩

/-- The directory that a path leads to, if it leads to one: the names in it have their places
there. -/
theorem exists_directory (v : Volume) (path : Path) : ∃ directory, ∀ name, Path.IsName name →
    ∀ place, v.locate (path.join name) = .ok place → place = directory ++ [name] := by
  obtain ⟨outer, houter⟩ := Path.exists_pieces_join path
  have hlocate {name : Path.Name} (hname : Path.IsName name) {place : List Path.Name}
      (h : v.locate (path.join name) = .ok place) : ∃ directory,
        v.follow (v.start path) outer = .ok directory ∧ place = directory ++ [name] := by
    obtain ⟨hpieces, habsolute⟩ := houter name hname
    obtain ⟨_, -, hfollow⟩ := bind_eq_ok.mp h
    have hstart : v.start (path.join name) = v.start path := by
      unfold start
      rw [habsolute]
    rw [hpieces, hstart] at hfollow
    obtain ⟨directory, hdirectory, hstep⟩ := follow_concat hfollow
    refine ⟨directory, hdirectory, ?_⟩
    unfold step at hstep
    rw [if_neg (not_or.mpr ⟨hname.ne_nil, hname.ne_dot⟩), if_neg hname.ne_dots] at hstep
    split at hstep
    · cases hstep
    · exact (Except.ok.inj hstep).symm
  cases hfollow : v.follow (v.start path) outer with
  | error fault =>
    refine ⟨[], fun name hname place h => ?_⟩
    obtain ⟨directory, hdirectory, -⟩ := hlocate hname h
    cases hfollow.symm.trans hdirectory
  | ok directory =>
    refine ⟨directory, fun name hname place h => ?_⟩
    obtain ⟨other, hother, rfl⟩ := hlocate hname h
    rw [Except.ok.inj (hfollow.symm.trans hother)]

theorem files_of_makeDirectory {pieces : List Path.Name}
    (h : v.makeDirectory place pieces = .ok w) : w.files = v.files := by
  obtain ⟨made, -, hmade⟩ := bind_eq_ok.mp h
  split at hmade
  · cases hmade
  · obtain rfl := Except.ok.inj hmade
    rfl

theorem files_of_ensureDirectory {pieces : List Path.Name}
    (h : v.ensureDirectory place pieces = .ok w) : w.files = v.files := by
  unfold ensureDirectory at h
  split at h
  next made hmade =>
    obtain rfl := Except.ok.inj h
    exact files_of_makeDirectory hmade
  next =>
    split at h
    · split at h
      · obtain rfl := Except.ok.inj h
        rfl
      · cases h
    · cases h

theorem files_of_ensureAround {pieces reversed : List Path.Name}
    (h : v.ensureAround place pieces reversed = .ok w) : w.files = v.files := by
  induction reversed generalizing pieces w with
  | nil => exact files_of_ensureDirectory h
  | cons last outer ih =>
    unfold ensureAround at h
    split at h
    · obtain ⟨made, hmade, hlast⟩ := bind_eq_ok.mp h
      exact (files_of_ensureDirectory hlast).trans (ih hmade)
    · exact files_of_ensureDirectory h

/-- Directories are made without a change to the files. -/
theorem files_of_makeDirectories (h : v.makeDirectories path = .ok w) : w.files = v.files := by
  unfold makeDirectories at h
  split at h
  · obtain rfl := Except.ok.inj h
    rfl
  · obtain ⟨_, -, hmade⟩ := bind_eq_ok.mp h
    exact files_of_ensureAround hmade

end EventRules.Volume
