import EventRules.Host.Path
import EventRules.Proofs.Encoding.Utf8

/-! The pieces of paths. A name put behind a directory is one piece more, whatever the directory,
and the stem of a file is a part of such a piece. A path that is UTF-8 is shown as its text, so of
two such paths only equal ones are shown alike. -/
namespace EventRules.Path

open Encoding (Utf8.encode)

variable {octets : List UInt8} {path directory : Path} {piece name : Name}

theorem splitSlash_ne_nil (octets : List UInt8) : splitSlash octets ≠ [] := by
  cases octets with
  | nil => simp [splitSlash]
  | cons octet rest =>
    unfold splitSlash
    split
    · simp
    · split <;> simp

theorem splitSlash_cons {octet : UInt8} (h : octet ≠ slash) (rest : List UInt8) :
    ∃ piece others, splitSlash rest = piece :: others ∧
      splitSlash (octet :: rest) = (octet :: piece) :: others := by
  obtain ⟨piece, others, hrest⟩ := List.exists_cons_of_ne_nil (splitSlash_ne_nil rest)
  exact ⟨piece, others, hrest, by simp [splitSlash, h, hrest]⟩

/-- A slash ends the pieces before it. -/
theorem splitSlash_append (front back : List UInt8) :
    splitSlash (front ++ slash :: back) = splitSlash front ++ splitSlash back := by
  induction front with
  | nil => simp [splitSlash]
  | cons octet rest ih =>
    by_cases h : octet = slash
    · subst h
      simp [splitSlash, ih]
    · obtain ⟨piece, others, hrest, hcons⟩ := splitSlash_cons h rest
      rw [hcons, List.cons_append, splitSlash, if_neg h, ih, hrest]
      rfl

theorem splitSlash_of_notMem (h : slash ∉ octets) : splitSlash octets = [octets] := by
  induction octets with
  | nil => rfl
  | cons octet rest ih =>
    have hoctet : octet ≠ slash := fun heq => h (heq ▸ List.mem_cons_self)
    rw [splitSlash, if_neg hoctet, ih fun hr => h (List.mem_cons_of_mem octet hr)]

theorem notMem_of_mem_splitSlash (h : piece ∈ splitSlash octets) : slash ∉ piece := by
  induction octets generalizing piece with
  | nil =>
    obtain rfl : piece = [] := by simpa [splitSlash] using h
    simp
  | cons octet rest ih =>
    by_cases hoctet : octet = slash
    · subst hoctet
      rcases List.mem_cons.mp (show piece ∈ [] :: splitSlash rest by simpa [splitSlash] using h)
        with rfl | hr
      · simp
      · exact ih hr
    · obtain ⟨first, others, hrest, hcons⟩ := splitSlash_cons hoctet rest
      rw [hcons] at h
      rcases List.mem_cons.mp h with rfl | hr
      · have hfirst : slash ∉ first := ih (by simp [hrest])
        simp [Ne.symm hoctet, hfirst]
      · exact ih (by simp [hrest, hr])

theorem notMem_of_fileName? (h : path.fileName? = some name) : slash ∉ name := by
  obtain ⟨hlast, -⟩ := Option.filter_eq_some_iff.mp h
  exact notMem_of_mem_splitSlash (List.mem_filter.mp (List.mem_of_getLast? hlast)).1

theorem notMem_of_stem? (h : path.stem? = some name) : slash ∉ name := by
  obtain ⟨whole, hwhole, rfl⟩ := Option.map_eq_some_iff.mp h
  have hslash := notMem_of_fileName? hwhole
  unfold splitName
  dsimp only
  split
  · exact hslash
  · rw [List.mem_reverse]
    intro hmem
    have hreverse := (List.dropWhile_sublist _).subset (List.mem_of_mem_drop hmem)
    exact hslash (List.mem_reverse.mp hreverse)

/-- The octets name something in the directory before them. -/
structure IsName (name : Name) : Prop where
  noSlash : slash ∉ name
  ne_nil : name ≠ []
  ne_dot : name ≠ [dot]
  ne_dots : name ≠ [dot, dot]

theorem pieces_name (h : slash ∉ name) : pieces ⟨name⟩ = [name] := splitSlash_of_notMem h

theorem pieces_append_slash (octets : List UInt8) (h : slash ∉ name) :
    pieces ⟨octets ++ slash :: name⟩ = pieces ⟨octets⟩ ++ [name] := by
  show splitSlash _ = splitSlash octets ++ [name]
  rw [splitSlash_append, splitSlash_of_notMem h]

/-- A name inside a directory: the pieces of the directory, and then the name. -/
theorem exists_pieces_join (directory : Path) : ∃ outer, ∀ name, IsName name →
    (directory.join name).pieces = outer ++ [name] ∧
      (directory.join name).isAbsolute = directory.isAbsolute := by
  have habsolute {name : Name} (h : IsName name) : isAbsolute ⟨name⟩ = false := by
    unfold isAbsolute
    cases name with
    | nil => rfl
    | cons octet rest =>
      have hoctet : octet ≠ slash := fun heq => h.noSlash (heq ▸ List.mem_cons_self)
      simpa using hoctet
  by_cases hempty : directory.octets = []
  · refine ⟨[], fun name h => ?_⟩
    have hjoin : directory.join name = ⟨name⟩ := if_pos (.inr hempty)
    rw [hjoin, habsolute h, isAbsolute, hempty]
    exact ⟨pieces_name h.noSlash, rfl⟩
  have hfirst (rest : List UInt8) :
      isAbsolute ⟨directory.octets ++ rest⟩ = directory.isAbsolute := by
    obtain ⟨octet, others, hoctets⟩ := List.exists_cons_of_ne_nil hempty
    simp [isAbsolute, hoctets]
  by_cases hlast : directory.octets.getLast? = some slash
  · obtain ⟨outer, houter⟩ := List.getLast?_eq_some_iff.mp hlast
    refine ⟨pieces ⟨outer⟩, fun name h => ?_⟩
    have hjoin : directory.join name = ⟨directory.octets ++ name⟩ := by
      simp [join, habsolute h, hempty, hlast]
    rw [hjoin, hfirst, houter, List.append_assoc]
    exact ⟨pieces_append_slash outer h.noSlash, rfl⟩
  · refine ⟨directory.pieces, fun name h => ?_⟩
    have hjoin : directory.join name = ⟨directory.octets ++ slash :: name⟩ := by
      simp [join, habsolute h, hempty, hlast]
    rw [hjoin, hfirst]
    exact ⟨pieces_append_slash directory.octets h.noSlash, rfl⟩

theorem slash_mem_encode_iff {s : String} : slash ∈ Utf8.encode s ↔ '/' ∈ s.toList :=
  Encoding.Utf8.mem_encode_iff (by decide)

/-- A path that is UTF-8 is shown as its text. -/
theorem display_ofText (s : String) : (ofText s).display = s := Encoding.Utf8.decodeLossy_encode s

end EventRules.Path
