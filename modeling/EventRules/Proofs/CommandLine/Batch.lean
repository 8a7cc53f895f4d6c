import EventRules.CommandLine.Run
import EventRules.Proofs.Host.Program
import Mathlib.Data.List.FinRange

/-! Batches on a volume. A batch reads its inputs before it writes anything, and what it writes
besides the documents are entries in the streams; so the files afterwards are those from before with
the documents put into the directory, one after the other, under names made of the stems of the
inputs. -/
namespace EventRules

open Encoding Volume

namespace Catalog

theorem reads_readJson (path : Path) : Reads (readJson path : StateM Volume _) := by
  apply Reads.bind fun _ => rfl
  intro result
  cases result <;> exact reads_pure _

theorem reads_addVersions (directory : Path) (names : List Path.Name) (catalog : Catalog) :
    Reads (addVersions directory names catalog : StateM Volume _) := by
  induction names generalizing catalog with
  | nil => exact reads_pure _
  | cons name rest ih =>
    unfold addVersions
    split
    · exact ih _
    · apply (reads_readJson _).bind
      rintro (fault | value)
      · exact reads_pure _
      · dsimp only
        split
        · exact reads_pure _
        · exact ih _

theorem reads_load (path : Path) : Reads (load path : StateM Volume _) := by
  unfold load
  apply Reads.bind fun _ => rfl
  intro isDirectory
  split
  · apply Reads.bind fun _ => rfl
    rintro (fault | names)
    · exact reads_pure _
    · exact reads_addVersions _ _ _
  · apply (reads_readJson _).bind
    rintro (fault | value) <;> exact reads_pure _

end Catalog

namespace Compile

variable {settings : Settings} {catalog : Option Catalog} {v w : Volume}

theorem reads_loadCatalog (settings : Settings) :
    Reads (loadCatalog settings : StateM Volume _) := by
  unfold loadCatalog
  split
  · exact reads_pure _
  · apply (Catalog.reads_load _).bind
    rintro (fault | loaded) <;> exact reads_pure _

/-- What a file of the volume is compiled to, under an identifier that is handed out. -/
def compiled (settings : Settings) (catalog : Option Catalog) (v : Volume) (number : Nat)
    (path : Path) : Except CompileFault Json :=
  let fresh := v.identifier number
  let read :=
    match v.read path with
    | .ok octets => Payload.ofBytes fresh octets
    | .error fault => .error (.io fault)
  (payload fresh settings.phases catalog read).1

theorem compiled_eq (h : v.Like w) (number : Nat) (path : Path) :
    compiled settings catalog w number path = compiled settings catalog v number path := by
  unfold compiled
  rw [h.identifier, h.read]

/-- What files are compiled to, one after the other under the identifiers from a number on. -/
def compiledFrom (settings : Settings) (catalog : Option Catalog) (v : Volume) (number : Nat)
    (paths : List Path) : List (Except CompileFault Json) :=
  (paths.zipIdx number).map fun entry => compiled settings catalog v entry.2 entry.1

theorem compiledFrom_eq (h : v.Like w) (number : Nat) (paths : List Path) :
    compiledFrom settings catalog w number paths = compiledFrom settings catalog v number paths :=
  List.map_congr_left fun _ _ => compiled_eq h _ _

/-- Compiling files changes none, and each result is that of the file as it is before. -/
theorem files_run (settings : Settings) (catalog : Option Catalog) (paths : List Path)
    (v : Volume) : v.Like ((files settings catalog paths : StateM Volume _) v).2 ∧
      ((files settings catalog paths : StateM Volume _) v).1.1 =
        compiledFrom settings catalog v v.handedOut paths := by
  induction paths generalizing v with
  | nil => exact ⟨.refl v, rfl⟩
  | cons path rest ih =>
    -- the identifier is handed out before the file is read
    have hlike : v.Like { v with handedOut := v.handedOut + 1 } := ⟨rfl, rfl, rfl, rfl⟩
    obtain ⟨hrest, hresults⟩ := ih { v with handedOut := v.handedOut + 1 }
    refine ⟨hlike.trans hrest, congrArg₂ List.cons (compiled_eq hlike _ _) ?_⟩
    exact hresults.trans (compiledFrom_eq hlike _ _)

end Compile

namespace CommandLine

theorem reads_environmentOf (names : List String) :
    Reads (environmentOf names : StateM Volume _) := by
  induction names with
  | nil => exact reads_pure _
  | cons name rest ih =>
    exact Reads.bind (fun _ => rfl) fun _ => ih.bind fun _ => reads_pure _

theorem reads_readSettings : Reads (readSettings : StateM Volume Settings) := by
  have henv : Reads (envFile : StateM Volume _) := by
    apply Reads.bind fun _ => rfl
    intro result
    cases result <;> exact reads_pure _
  exact henv.bind fun _ => (reads_environmentOf _).bind fun _ => reads_pure _

theorem calm_reportLines (lines : List String) : Calm (reportLines lines : StateM Volume Unit) := by
  induction lines with
  | nil => exact calm_pure ()
  | cons line rest ih => exact (calm_report line).bind fun _ => ih

theorem calm_echo (quiet : Bool) (entries : List LogEntry) :
    Calm (echo quiet entries : StateM Volume Unit) := by
  unfold echo
  cases quiet
  · exact calm_reportLines _
  · exact calm_pure ()

theorem calm_fail (message : String) : Calm (fail message : StateM Volume Nat) :=
  (calm_report _).bind fun _ => calm_pure 1

theorem isName_documentName (input : Path) : Path.IsName (Utf8.encode (documentName input)) := by
  have hoctets : Utf8.encode (documentName input) =
      Utf8.encode ((input.stem?.bind Utf8.text?).getD "rules") ++ Utf8.encode ".pipeline.json" :=
    Utf8.encode_append _ _
  have hlength : 14 ≤ (Utf8.encode (documentName input)).length := by
    have hsuffix : (Utf8.encode ".pipeline.json").length = 14 := rfl
    rw [hoctets, List.length_append]
    omega
  refine ⟨?_, ?_, ?_, ?_⟩
  · rw [hoctets, List.mem_append, not_or]
    refine ⟨?_, by decide +kernel⟩
    cases hstem : input.stem? with
    | none => decide +kernel
    | some stem =>
      rw [Option.bind_some]
      cases htext : Utf8.text? stem with
      | none => decide +kernel
      | some text =>
        rw [Option.getD_some, Utf8.text?_eq_some_iff.mp htext]
        exact Path.notMem_of_stem? hstem
  all_goals
    intro heq
    rw [heq] at hlength
    revert hlength
    decide

/-- The inputs of a batch that have a document, each with it. -/
def documents : List (Path × Except CompileFault Json) → List (Path × Json)
  | [] => []
  | (_, .error _) :: rest => documents rest
  | (input, .ok value) :: rest => (input, value) :: documents rest

/-- The texts of documents under the names by which they are written. -/
def named (docs : List (Path × Json)) : List (String × String) :=
  docs.map fun d => (documentName d.1, d.2.compact)

variable {quiet : Bool} {directory : Path} {place : List Path.Name} {v made final : Volume}
  {results : List (Path × Except CompileFault Json)} {docs : List (Path × Json)}

theorem documents_sublist (results : List (Path × Except CompileFault Json)) :
    ((documents results).map Prod.fst).Sublist (results.map Prod.fst) := by
  induction results with
  | nil => exact .slnil
  | cons result rest ih =>
    rcases result with ⟨input, fault | value⟩
    · exact ih.cons input
    · exact ih.cons_cons input

/-- Each document has its place in the directory, and no directory is there. -/
def Placed (v : Volume) (directory : Path) (place : List Path.Name) (docs : List (Path × Json)) :
    Prop :=
  ∀ d ∈ docs, v.Names (documentPath directory d.1) (place ++ [Utf8.encode (documentName d.1)])

/-- Documents that have their places are put there, and the inputs without one are counted. -/
theorem writeDocuments_run (quiet : Bool) (h : Placed v directory place (documents results))
    (failed : Nat) :
    ∃ w n, (writeDocuments quiet directory results failed : StateM Volume _) v =
        (.ok (failed + n), w) ∧
      (documents results).length + n = results.length ∧
      (v.putAll place (named (documents results))).Like w := by
  induction results generalizing v failed with
  | nil => exact ⟨v, 0, rfl, rfl, .refl v⟩
  | cons result rest ih =>
    rcases result with ⟨input, fault | value⟩
    · obtain ⟨w, n, hrun, hlength, hlike⟩ := ih h (failed + 1)
      refine ⟨w, n + 1, ?_, ?_, hlike⟩
      · rw [Nat.add_comm n 1, ← Nat.add_assoc]
        exact hrun
      · rw [List.length_cons, ← hlength]
        rfl
    · have hfirst := h (input, value) List.mem_cons_self
      obtain ⟨hecho, -⟩ := calm_echo quiet
        [.success (input.display ++ " -> " ++ (documentPath directory input).display)]
        (v.putFile (place ++ [Utf8.encode (documentName input)]) (Utf8.encode value.compact))
      have hrest : Placed _ directory place (documents rest) := fun d hd =>
        hecho.names ((h d (List.mem_cons_of_mem _ hd)).putFile hfirst.free)
      obtain ⟨w, n, hrun, hlength, hlike⟩ := ih hrest failed
      refine ⟨w, n, ?_, ?_, (hecho.putAll place _).trans hlike⟩
      · rw [writeDocuments, run_bind, writeFile_run hfirst]
        exact hrun
      · rw [List.length_cons, ← hlength]
        show (documents rest).length + 1 + n = _
        omega

theorem makeDirectories_run (h : v.makeDirectories directory = .ok made) :
    (Host.makeDirectories directory : StateM Volume _) v = (.ok (), made) := by
  show Volume.attempt _ v = _
  unfold Volume.attempt
  dsimp only
  rw [h]

/-- A batch whose directory is made and whose catalog is loaded compiles its inputs from the files
that are there then, and writes the documents. -/
theorem batch_run {settings : Settings} {catalog : Option Catalog} {options : CompileOptions}
    (hsettings : options.applyTo ((readSettings : StateM Volume Settings) v).1 = settings)
    (hmade : v.makeDirectories directory = .ok made)
    (hcatalog : ((Compile.loadCatalog settings : StateM Volume _) made).1.1 = .ok catalog)
    (quiet : Bool) (inputs : List Path) : ∃ before, made.Like before ∧
    (batch quiet inputs directory options : StateM Volume Nat) v =
      (do
        match ← writeDocuments quiet directory (inputs.zip
          (Compile.compiledFrom settings catalog made made.handedOut inputs)) 0 with
        | .error fault => fail fault.message
        | .ok 0 => return 0
        | .ok failed =>
          fail (toString failed ++ " of " ++ toString inputs.length ++ " file(s) failed") :
        StateM Volume Nat) before := by
  have hloaded : ((Compile.loadCatalog settings : StateM Volume _) made).1 =
      (.ok catalog, ((Compile.loadCatalog settings : StateM Volume _) made).1.2) :=
    Prod.ext hcatalog rfl
  let begun : Volume := ((do
    echo quiet ((Compile.loadCatalog settings : StateM Volume _) made).1.2
    echo quiet [.info ("Compiling " ++ toString inputs.length ++ " file(s)")] :
    StateM Volume Unit) made).2
  let finished := (Compile.files settings catalog inputs : StateM Volume _) begun
  obtain ⟨hbegun, hcounter⟩ : made.Like begun ∧ begun.handedOut = made.handedOut :=
    (calm_echo quiet _).bind (fun _ => calm_echo quiet _) made
  obtain ⟨hcompiles, hresults⟩ := Compile.files_run settings catalog inputs begun
  rw [hcounter, Compile.compiledFrom_eq hbegun] at hresults
  obtain ⟨hreports, -⟩ := (calm_echo quiet finished.1.2).bind
    (fun _ => calm_echo quiet (progressEntries inputs finished.1.2)) finished.2
  refine ⟨_, (hbegun.trans hcompiles).trans hreports, ?_⟩
  rw [← hresults]
  unfold batch
  rw [run_bind, reads_readSettings v]
  dsimp only
  rw [hsettings, run_bind, makeDirectories_run hmade]
  dsimp only
  rw [run_bind, Compile.reads_loadCatalog settings made, hloaded]
  rfl

/-- Documents that can be written have their places, all in one directory. -/
theorem exists_placed
    (h : ∀ d ∈ docs, ∃ w, v.write (documentPath directory d.1) d.2.compact = .ok w) :
    ∃ place, Placed v directory place docs := by
  obtain ⟨place, hplace⟩ := v.exists_directory directory
  refine ⟨place, fun d hd => ?_⟩
  obtain ⟨w, hw⟩ := h d hd
  obtain ⟨other, hnames, -⟩ := write_eq_ok.mp hw
  rwa [hplace _ (isName_documentName d.1) other hnames.locates] at hnames

/-- Each document has a file of its own among those that the batch has written, and its text is in
it. -/
def HaveOwnFiles (v : Volume) (directory : Path) (docs : List (Path × Json)) : Prop :=
  ∃ name : Fin docs.length → String, Function.Injective name ∧
    ∀ i, name i ∈ Ordered.keys (named docs) ∧
      v.read (directory.join (Utf8.encode (name i))) = .ok (Utf8.encode docs[i].2.compact)

theorem keys_named (docs : List (Path × Json)) :
    Ordered.keys (named docs) = docs.map fun d => documentName d.1 := by
  simp [Ordered.keys, named]

theorem mem_keys_named {name : String} :
    name ∈ Ordered.keys (named docs) ↔ ∃ d ∈ docs, documentName d.1 = name := by
  rw [keys_named, List.mem_map]

/-- Where documents have been put, each of their paths leads to its place. -/
theorem locate_of_placed (hplaced : Placed made directory place docs)
    (hlike : (made.putAll place (named docs)).Like final) {name : String}
    (h : name ∈ Ordered.keys (named docs)) :
    final.locate (directory.join (Utf8.encode name)) = .ok (place ++ [Utf8.encode name]) := by
  obtain ⟨d, hd, rfl⟩ := mem_keys_named.mp h
  have hfree : ∀ n ∈ Ordered.keys (named docs),
      ¬ made.isDirectoryAt (place ++ [Utf8.encode n]) := by
    intro n hn
    obtain ⟨other, hother, rfl⟩ := mem_keys_named.mp hn
    exact (hplaced other hother).free
  exact (hlike.names ((hplaced d hd).putAll hfree)).locates

/-- The last of each name is read there. -/
theorem read_of_isLast (hplaced : Placed made directory place docs)
    (hlike : (made.putAll place (named docs)).Like final) {name text : String}
    (h : Ordered.IsLast (name, text) (named docs)) :
    final.read (directory.join (Utf8.encode name)) = .ok (Utf8.encode text) := by
  have hkey : name ∈ Ordered.keys (named docs) := by
    obtain ⟨front, back, hsplit, -⟩ := h
    exact Ordered.mem_keys.mpr ⟨text, by rw [hsplit]; simp⟩
  apply read_eq (locate_of_placed hplaced hlike hkey)
  rw [hlike.fileAt?]
  exact fileAt?_putAll h

theorem exists_isLast {name : String} (h : name ∈ Ordered.keys (named docs)) :
    ∃ text, Ordered.IsLast (name, text) (named docs) := by
  obtain ⟨text, htext⟩ := Ordered.mem_keys.mp (Ordered.mem_keys_ofPairs.mpr h)
  exact ⟨text, Ordered.mem_ofPairs.mp htext⟩

/-- A text is read under one of the names when it is the last of its name. -/
theorem read_iff (hplaced : Placed made directory place docs)
    (hlike : (made.putAll place (named docs)).Like final) {text : String} :
    (∃ name ∈ Ordered.keys (named docs),
      final.read (directory.join (Utf8.encode name)) = .ok (Utf8.encode text)) ↔
      ∃ name, Ordered.IsLast (name, text) (named docs) := by
  constructor
  · rintro ⟨name, hname, hread⟩
    obtain ⟨last, hlast⟩ := exists_isLast hname
    have hoctets := Except.ok.inj (hread.symm.trans (read_of_isLast hplaced hlike hlast))
    obtain rfl := Utf8.encode_injective hoctets
    exact ⟨name, hlast⟩
  · rintro ⟨name, hlast⟩
    refine ⟨name, ?_, read_of_isLast hplaced hlike hlast⟩
    obtain ⟨front, back, hsplit, -⟩ := hlast
    exact Ordered.mem_keys.mpr ⟨text, by rw [hsplit]; simp⟩

/-- There are as many files as there are names. -/
theorem haveOwnFiles_iff (hplaced : Placed made directory place docs)
    (hlike : (made.putAll place (named docs)).Like final) :
    HaveOwnFiles final directory docs ↔ (Ordered.keys (named docs)).Nodup := by
  constructor
  · rintro ⟨name, hinjective, hname⟩
    have hsubset : List.ofFn name ⊆ Ordered.keys (Ordered.ofPairs (named docs)) := by
      intro n hn
      obtain ⟨i, rfl⟩ := List.mem_ofFn.mp hn
      exact Ordered.mem_keys_ofPairs.mpr (hname i).1
    have hle := ((List.nodup_ofFn.mpr hinjective).subperm hsubset).length_le
    apply Ordered.keys_nodup_of_length_ofPairs
    simpa [Ordered.keys, named] using hle
  · intro hnodup
    refine ⟨fun i => documentName docs[i].1, fun i j hij => ?_, fun i => ⟨?_, ?_⟩⟩
    · have hi : i.1 < (Ordered.keys (named docs)).length := by simp [Ordered.keys, named]
      have hj : j.1 < (Ordered.keys (named docs)).length := by simp [Ordered.keys, named]
      have heq : (Ordered.keys (named docs))[i.1] = (Ordered.keys (named docs))[j.1] := by
        simpa [Ordered.keys, named] using hij
      exact Fin.ext (hnodup.getElem_inj_iff.mp heq)
    · exact mem_keys_named.mpr ⟨docs[i], List.getElem_mem _, rfl⟩
    · apply read_of_isLast hplaced hlike
      rw [← Ordered.mem_ofPairs, Ordered.ofPairs_eq_self hnodup]
      exact List.mem_map.mpr ⟨docs[i], List.getElem_mem _, rfl⟩

/-- A batch that nothing stops: its directory can be made and its catalog loaded, and what its
inputs are compiled to can be written. -/
structure Ready (inputs : List Path) (directory : Path) (options : CompileOptions) (v : Volume)
    (settings : Settings) (catalog : Option Catalog) (made : Volume) : Prop where
  settings_eq : options.applyTo ((readSettings : StateM Volume Settings) v).1 = settings
  makes : v.makeDirectories directory = .ok made
  loads : ((Compile.loadCatalog settings : StateM Volume _) made).1.1 = .ok catalog
  writes : ∀ d ∈ documents (inputs.zip
      (Compile.compiledFrom settings catalog made made.handedOut inputs)),
    ∃ w, made.write (documentPath directory d.1) d.2.compact = .ok w

/-- The end of a batch that nothing stops: the documents of the inputs that compile are put into the
directory, and the batch succeeds if these are all inputs. -/
theorem Ready.ends {inputs : List Path} {options : CompileOptions} {settings : Settings}
    {catalog : Option Catalog} (h : Ready inputs directory options v settings catalog made)
    (quiet : Bool) :
    let docs := documents (inputs.zip
      (Compile.compiledFrom settings catalog made made.handedOut inputs))
    let ended := (batch quiet inputs directory options : StateM Volume Nat) v
    (ended.1 = 0 ↔ docs.map Prod.fst = inputs) ∧
      ∃ place, Placed made directory place docs ∧
        (made.putAll place (named docs)).Like ended.2 := by
  intro docs ended
  obtain ⟨before, hbefore, hrun⟩ := batch_run h.settings_eq h.makes h.loads quiet inputs
  obtain ⟨place, hplaced⟩ := exists_placed h.writes
  obtain ⟨w, n, hwritten, hlength, hlike⟩ := writeDocuments_run quiet
    (fun d hd => hbefore.names (hplaced d hd)) 0
  have hresults : (Compile.compiledFrom settings catalog made made.handedOut inputs).length =
      inputs.length := by
    simp [Compile.compiledFrom]
  have hinputs : docs.map Prod.fst = inputs ↔ docs.length = inputs.length := by
    have hsublist : (docs.map Prod.fst).Sublist _ := documents_sublist _
    rw [List.map_fst_zip hresults.ge] at hsublist
    refine ⟨fun heq => ?_, fun heq => hsublist.eq_of_length (by rw [List.length_map, heq])⟩
    rw [← congrArg List.length heq, List.length_map]
  rw [Nat.zero_add] at hwritten
  rw [List.length_zip, hresults, Nat.min_self] at hlength
  have hcount : docs.length + n = inputs.length := hlength
  have hputs := (hbefore.putAll place _).trans hlike
  rw [run_bind, hwritten] at hrun
  rw [show ended = _ from hrun, hinputs]
  cases n with
  | zero => exact ⟨iff_of_true rfl hcount, place, hplaced, hputs⟩
  | succ n =>
    have hfails := calm_fail
      (toString (n + 1) ++ " of " ++ toString inputs.length ++ " file(s) failed") w
    refine ⟨iff_of_false (Nat.succ_ne_zero 0) ?_, place, hplaced, hputs.trans hfails.1⟩
    omega

end CommandLine

open CommandLine

/-- A batch that nothing stops succeeds if every input compiles. Each name is left with the last of
the documents written under it, and no other file is changed. So the JSON of an input is left in one
of these files exactly when it is that of the last input of some name, and every input that compiles
has a file of its own exactly when no two of them have one name, that is, one stem. -/
theorem batch_documents_exact {inputs : List Path} {directory : Path}
    {options : CompileOptions} {v made : Volume} {settings : Settings} {catalog : Option Catalog}
    (h : Ready inputs directory options v settings catalog made) (quiet : Bool) :
    let results := Compile.compiledFrom settings catalog made made.handedOut inputs
    let docs := documents (inputs.zip results)
    let ended := (batch quiet inputs directory options : StateM Volume Nat) v
    (ended.1 = 0 ↔ docs.map Prod.fst = inputs) ∧
    (∀ name text, Ordered.IsLast (name, text) (named docs) →
      ended.2.read (directory.join (Utf8.encode name)) = .ok (Utf8.encode text)) ∧
    (∀ place, (∀ name ∈ Ordered.keys (named docs),
        ended.2.locate (directory.join (Utf8.encode name)) ≠ .ok place) →
      ended.2.fileAt? place = v.fileAt? place) ∧
    (∀ d ∈ docs, (∃ name ∈ Ordered.keys (named docs),
        ended.2.read (directory.join (Utf8.encode name)) = .ok (Utf8.encode d.2.compact)) ↔
      ∃ name, Ordered.IsLast (name, d.2.compact) (named docs)) ∧
    (HaveOwnFiles ended.2 directory docs ↔ (docs.map fun d => documentName d.1).Nodup) := by
  intro results docs ended
  obtain ⟨hcode, place, hplaced, hlike⟩ := h.ends quiet
  refine ⟨hcode, fun name text => read_of_isLast hplaced hlike, ?_,
    fun d _ => read_iff hplaced hlike, ?_⟩
  · intro other hother
    rw [hlike.fileAt?, fileAt?_putAll_of_notMem]
    · unfold Volume.fileAt?
      rw [files_of_makeDirectories h.makes]
    · intro name hname heq
      exact hother name hname (heq ▸ locate_of_placed hplaced hlike hname)
  · rw [haveOwnFiles_iff hplaced hlike, keys_named]

/-- The octets of a file with a rule that gives a field a value. -/
def ruleFile (value : String) : List UInt8 :=
  Utf8.encode (Json.object [("description", .text "d"),
    ("actions", .array [.object [("actionType", .text "copy"), ("target", .text "A"),
      ("from", .object [("value", .text value)])]])]).compact

/-- Two rules in files of different stems. -/
theorem batch_documents_exact_apart :
    let v : Volume :=
      { files := [(["a", "x.json"].map Utf8.encode, ruleFile "1"),
          (["b", "y.json"].map Utf8.encode, ruleFile "2")],
        directories := [[Utf8.encode "out"]] }
    let inputs := ["a/x.json", "b/y.json"].map Path.ofText
    let out := Path.ofText "out"
    Ready inputs out {} v {} none v ∧
      ((batch false inputs out {} : StateM Volume Nat) v).1 = 0 ∧
      ∃ docs, docs.map Prod.fst = inputs ∧
        HaveOwnFiles ((batch false inputs out {} : StateM Volume Nat) v).2 out docs := by
  intro v inputs out
  have hx : v.Names (.ofText "out/x.pipeline.json") (["out", "x.pipeline.json"].map Utf8.encode) :=
    ⟨by decide +kernel, rfl, by decide +kernel⟩
  have hy : v.Names (.ofText "out/y.pipeline.json") (["out", "y.pipeline.json"].map Utf8.encode) :=
    ⟨by decide +kernel, rfl, by decide +kernel⟩
  have hready : Ready inputs out {} v {} none v := by
    refine ⟨rfl, rfl, rfl, fun d hd => ?_⟩
    have hinput : d.1 ∈ inputs := by
      obtain ⟨result, hresult, heq⟩ :=
        List.mem_map.mp ((documents_sublist _).subset (List.mem_map_of_mem hd))
      exact heq ▸ (List.of_mem_zip hresult).1
    rcases List.mem_pair.mp hinput with heq | heq <;> rw [heq]
    · exact ⟨_, write_eq_ok.mpr ⟨_, hx, rfl⟩⟩
    · exact ⟨_, write_eq_ok.mpr ⟨_, hy, rfl⟩⟩
  obtain ⟨hcode, -, -, -, hown⟩ := batch_documents_exact hready false
  have hdocs : (documents (inputs.zip
      (Compile.compiledFrom {} none v v.handedOut inputs))).map Prod.fst = inputs := by
    decide +kernel
  refine ⟨hready, hcode.mpr hdocs, _, hdocs, hown.mpr ?_⟩
  show (List.map (documentName ∘ Prod.fst) _).Nodup
  rw [← List.map_map, hdocs]
  decide +kernel

/-- Two rules in files of one stem: the batch succeeds, and the JSON of the first rule is not in the
file that it has written for them. -/
theorem batch_loses_document :
    let v : Volume :=
      { files := [(["a", "x.json"].map Utf8.encode, ruleFile "1"),
          (["b", "x.json"].map Utf8.encode, ruleFile "2")],
        directories := [[Utf8.encode "out"]] }
    let inputs := ["a/x.json", "b/x.json"].map Path.ofText
    let out := Path.ofText "out"
    ((batch false inputs out {} : StateM Volume Nat) v).1 = 0 ∧
      ∃ value, Compile.compiled {} none v 0 (.ofText "a/x.json") = .ok value ∧ ∀ input ∈ inputs,
        ((batch false inputs out {} : StateM Volume Nat) v).2.read (documentPath out input) ≠
          .ok (Utf8.encode value.compact) := by
  intro v inputs out
  have hpath : ∀ input ∈ inputs,
      documentPath out input = documentPath out (.ofText "b/x.json") := by
    decide +kernel
  have hx : v.Names (documentPath out (.ofText "b/x.json"))
      (["out", "x.pipeline.json"].map Utf8.encode) :=
    ⟨by decide +kernel, by decide +kernel, by decide +kernel⟩
  -- both rules compile, and not to the same text
  have htexts : (match Compile.compiled {} none v 0 (.ofText "a/x.json"),
      Compile.compiled {} none v 1 (.ofText "b/x.json") with
    | .ok first, .ok second => first.compact != second.compact
    | _, _ => false) = true := by decide +kernel
  split at htexts
  next first second hfirst hsecond =>
    have hresults : Compile.compiledFrom {} none v v.handedOut inputs =
        [.ok first, .ok second] := by
      rw [← hfirst, ← hsecond]
      rfl
    have hready : Ready inputs out {} v {} none v := by
      refine ⟨rfl, rfl, rfl, ?_⟩
      rw [hresults]
      intro d hd
      have hinput : d.1 ∈ inputs := by
        rcases List.mem_pair.mp hd with rfl | rfl <;> simp [inputs]
      rw [hpath d.1 hinput]
      exact ⟨_, write_eq_ok.mpr ⟨_, hx, rfl⟩⟩
    obtain ⟨hcode, place, hplaced, hlike⟩ := hready.ends false
    rw [hresults] at hcode hplaced hlike
    refine ⟨hcode.mpr rfl, first, hfirst, fun input hinput hread => ?_⟩
    have hlast : Ordered.IsLast (documentName (.ofText "b/x.json"), second.compact)
        (named (documents (inputs.zip [.ok first, .ok second]))) :=
      ⟨[_], [], rfl, List.not_mem_nil⟩
    rw [hpath input hinput] at hread
    have hoctets := Except.ok.inj (hread.symm.trans (read_of_isLast hplaced hlike hlast))
    exact (bne_iff_ne.mp htexts) (Utf8.encode_injective hoctets)
  next => cases htexts

end EventRules
