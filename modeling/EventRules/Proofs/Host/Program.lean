import EventRules.Proofs.Host.Volume

/-! Programs on a volume. Most of what a program does leaves the files as they are: it reads, or it
hands out identifiers and writes to the streams. Volumes that differ in no more than that lead to
the same places and read the same files. -/
namespace EventRules.Volume

variable {v w u : Volume} {α β : Type} {path : Path}
  {place : List Path.Name}

/-- The volumes differ in what was handed out and in what was written to the streams, if they
differ. -/
structure Like (v w : Volume) : Prop where
  files : w.files = v.files
  directories : w.directories = v.directories
  workingDirectory : w.workingDirectory = v.workingDirectory
  identifier : w.identifier = v.identifier

namespace Like

theorem refl (v : Volume) : v.Like v := ⟨rfl, rfl, rfl, rfl⟩

theorem trans (h : v.Like w) (hw : w.Like u) : v.Like u :=
  ⟨hw.files.trans h.files, hw.directories.trans h.directories,
    hw.workingDirectory.trans h.workingDirectory, hw.identifier.trans h.identifier⟩

theorem fileAt? (h : v.Like w) (place : List Path.Name) : w.fileAt? place = v.fileAt? place := by
  unfold Volume.fileAt?
  rw [h.files]

theorem isDirectoryAt (h : v.Like w) (place : List Path.Name) :
    w.isDirectoryAt place = v.isDirectoryAt place := by
  unfold Volume.isDirectoryAt places
  rw [h.fileAt?, h.files, h.directories, h.workingDirectory]

theorem follow (h : v.Like w) (place pieces : List Path.Name) :
    w.follow place pieces = v.follow place pieces := by
  induction pieces generalizing place with
  | nil => rfl
  | cons piece rest ih =>
    have henter : w.enter place = v.enter place := by
      unfold enter
      rw [h.fileAt?, h.isDirectoryAt]
    unfold Volume.follow
    rw [henter]
    simp only [ih]

theorem locate (h : v.Like w) (path : Path) : w.locate path = v.locate path := by
  unfold Volume.locate start
  rw [h.workingDirectory]
  simp only [h.follow]

theorem read (h : v.Like w) (path : Path) : w.read path = v.read path := by
  unfold Volume.read
  rw [h.locate]
  simp only [h.fileAt?, h.isDirectoryAt]

theorem names (h : v.Like w) (hv : v.Names path place) : w.Names path place where
  file := hv.file
  locates := (h.locate path).trans hv.locates
  free := by
    rw [h.isDirectoryAt]
    exact hv.free

theorem putFile (h : v.Like w) (place : List Path.Name) (octets : List UInt8) :
    (v.putFile place octets).Like (w.putFile place octets) where
  files := by simp only [Volume.putFile, h.files]
  directories := h.directories
  workingDirectory := h.workingDirectory
  identifier := h.identifier

theorem putAll (h : v.Like w) (directory : List Path.Name) (pairs : List (String × String)) :
    (v.putAll directory pairs).Like (w.putAll directory pairs) := by
  induction pairs generalizing v w with
  | nil => exact h
  | cons pair rest ih => exact ih (h.putFile _ _)

end Like

theorem run_bind (x : StateM Volume α) (f : α → StateM Volume β) (v : Volume) :
    (x >>= f) v = f (x v).1 (x v).2 := rfl

/-- Writing a file puts it where its path leads. -/
theorem writeFile_run (h : v.Names path place) (content : String) :
    (Host.writeFile path content : StateM Volume _) v =
      (.ok (), v.putFile place (Encoding.Utf8.encode content)) := by
  have hwrite : v.write path content = .ok _ := write_eq_ok.mpr ⟨place, h, rfl⟩
  show attempt _ v = _
  unfold attempt
  dsimp only
  rw [hwrite]

/-- The program changes nothing. -/
def Reads (x : StateM Volume α) : Prop := ∀ v : Volume, (x v).2 = v

/-- The program changes nothing but the streams. -/
def Calm (x : StateM Volume α) : Prop :=
  ∀ v : Volume, v.Like (x v).2 ∧ (x v).2.handedOut = v.handedOut

theorem reads_pure (a : α) : Reads (pure a) := fun _ => rfl

theorem Reads.bind {x : StateM Volume α} {f : α → StateM Volume β} (hx : Reads x)
    (hf : ∀ a, Reads (f a)) : Reads (x >>= f) := by
  intro v
  rw [run_bind, hf, hx]

theorem calm_pure (a : α) : Calm (pure a) := fun v => ⟨.refl v, rfl⟩

theorem calm_report (line : String) : Calm (Host.report line) :=
  fun _ => ⟨⟨rfl, rfl, rfl, rfl⟩, rfl⟩

theorem Calm.bind {x : StateM Volume α} {f : α → StateM Volume β} (hx : Calm x)
    (hf : ∀ a, Calm (f a)) : Calm (x >>= f) := by
  intro v
  obtain ⟨hlike, hcounter⟩ := hx v
  obtain ⟨hlast, hsame⟩ := hf (x v).1 (x v).2
  exact ⟨hlike.trans hlast, hsame.trans hcounter⟩

end EventRules.Volume
