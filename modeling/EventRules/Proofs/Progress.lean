import EventRules.Batch
import EventRules.Proofs.Distinct
import EventRules.Proofs.Host.Path
import Mathlib.Data.Finset.Card

/-! The progress of a batch. Paths are told apart by the texts that they are shown as, their keys.
Whoever asks for outcomes one after the other is given the first entry about each key, counted from
one, and is told that the batch has ended exactly when every key has had its outcome; until then
there is an outcome to be had, or entries to be awaited. What was given does not depend on what is
logged later. So each path has one outcome of its own exactly where equal paths, and no others, have
one key. -/
namespace EventRules.Progress

/-- What asking for the next outcome comes to while the channel stays open. -/
inductive Reply where
  | outcome (found : (Nat × LogEntry) × Progress × List LogEntry)
  | ended
  /-- Nothing is left to read, and a path is still without an outcome. -/
  | waiting

/-- Ask for the next outcome. -/
def ask (p : Progress) : List LogEntry → Reply
  | [] => if p.pending.isEmpty then .ended else .waiting
  | entry :: rest =>
    if p.pending.isEmpty then .ended
    else
      match entry.file with
      | some key =>
        if p.pending.contains key then
          let pending := p.pending.erase key
          .outcome ((p.total - pending.length, entry), { p with pending }, rest)
        else ask p rest
      | none => ask p rest

/-- The outcomes that are given for a batch to someone who asks again and again, and the progress
and the unread entries then. -/
inductive Given (paths : List Path) (entries : List LogEntry) :
    List (Nat × LogEntry) → Progress → List LogEntry → Prop
  | start : Given paths entries [] (start paths) entries
  | outcome {given : List (Nat × LogEntry)} {p q : Progress} {unread rest : List LogEntry}
      {found : Nat × LogEntry} (h : Given paths entries given p unread)
      (hnext : p.next unread = some (found, q, rest)) :
      Given paths entries (given ++ [found]) q rest

/-- The keys that outcomes are about. -/
def reported (given : List (Nat × LogEntry)) : List String :=
  given.filterMap fun found => found.2.file

/-- The keys of paths, by which entries are about them. -/
def keys (paths : List Path) : List String := paths.map Path.display

/-- The first entry about a key of the batch that is not among those reported. -/
def FirstAbout (batch done : List String) (entries : List LogEntry) (entry : LogEntry) : Prop :=
  ∃ front key back, entries = front ++ entry :: back ∧ entry.file = some key ∧ key ∈ batch ∧
    key ∉ done ∧ ∀ e ∈ front, ∀ other ∈ e.file, other ∈ batch → other ∈ done

/-- What the outcomes given so far have to do with the progress and the unread entries. -/
structure Tally (batch : List String) (entries : List LogEntry) (given : List (Nat × LogEntry))
    (p : Progress) (unread : List LogEntry) : Prop where
  total : p.total = (distinct batch).length
  pending : p.pending = (distinct batch).filter (· ∉ reported given)
  nodup : (reported given).Nodup
  subset : reported given ⊆ batch
  length : (reported given).length = given.length
  counts : given.map Prod.fst = List.range' 1 given.length
  first : ∀ k found, given[k]? = some found →
    FirstAbout batch (reported (given.take k)) entries found.2
  read : ∃ read, entries = read ++ unread ∧
    ∀ e ∈ read, ∀ key ∈ e.file, key ∈ batch → key ∈ reported given

variable {batch : List String} {paths : List Path} {entries unread rest more : List LogEntry}
  {given : List (Nat × LogEntry)} {p q : Progress} {found : Nat × LogEntry} {entry : LogEntry}
  {key : String}

theorem mem_keys : key ∈ keys paths ↔ ∃ path ∈ paths, path.display = key := List.mem_map

theorem start_total (paths : List Path) : (start paths).total = (keys paths).toFinset.card := by
  have hset : (distinct (keys paths)).toFinset = (keys paths).toFinset := by
    ext key
    simp
  rw [← hset, List.toFinset_card_of_nodup (nodup_distinct (keys paths))]
  rfl

/-- An outcome passes over the entries that are about no pending key. -/
theorem next_cons_of_notMem (hne : p.pending ≠ []) (h : ∀ key ∈ entry.file, key ∉ p.pending) :
    p.next (entry :: rest) = p.next rest := by
  rw [next, if_neg (by simpa using hne)]
  cases hfile : entry.file with
  | none => rfl
  | some key => simp [h key hfile]

theorem next_cons_of_mem (hfile : entry.file = some key) (h : key ∈ p.pending) :
    p.next (entry :: rest) = some ((p.total - (p.pending.erase key).length, entry),
      { p with pending := p.pending.erase key }, rest) := by
  rw [next, if_neg (by simpa using List.ne_nil_of_mem h)]
  simp [hfile, h]

/-- Entries about no pending key are passed over. -/
theorem next_passing {front : List LogEntry}
    (hfront : ∀ e ∈ front, ∀ other ∈ e.file, other ∉ p.pending) (hfile : entry.file = some key)
    (hkey : key ∈ p.pending) : p.next (front ++ entry :: rest) =
      some ((p.total - (p.pending.erase key).length, entry),
        { p with pending := p.pending.erase key }, rest) := by
  induction front with
  | nil => exact next_cons_of_mem hfile hkey
  | cons e front ih =>
    rw [List.forall_mem_cons] at hfront
    rw [List.cons_append, next_cons_of_notMem (List.ne_nil_of_mem hkey) hfront.1, ih hfront.2]

/-- The next outcome is the first entry about a pending key, and that key is no longer pending. -/
theorem next_eq_some (h : p.next entries = some (found, q, rest)) :
    ∃ front key, entries = front ++ found.2 :: rest ∧
      (∀ e ∈ front, ∀ other ∈ e.file, other ∉ p.pending) ∧ found.2.file = some key ∧
      key ∈ p.pending ∧ q = { p with pending := p.pending.erase key } ∧
      found.1 = p.total - (p.pending.erase key).length := by
  induction entries with
  | nil => simp [next] at h
  | cons e others ih =>
    have hne : p.pending ≠ [] := by
      intro hnil
      simp [next, hnil] at h
    by_cases hmem : ∃ key ∈ e.file, key ∈ p.pending
    · obtain ⟨key, hfile, hkey⟩ := hmem
      rw [next_cons_of_mem hfile hkey] at h
      cases h
      exact ⟨[], key, rfl, by simp, hfile, hkey, rfl, rfl⟩
    · have hnot : ∀ key ∈ e.file, key ∉ p.pending := fun key hfile hkey =>
        hmem ⟨key, hfile, hkey⟩
      rw [next_cons_of_notMem hne hnot] at h
      obtain ⟨front, key, rfl, hfront, hrest⟩ := ih h
      exact ⟨e :: front, key, rfl, List.forall_mem_cons.mpr ⟨hnot, hfront⟩, hrest⟩

theorem next_eq_none_iff : p.next entries = none ↔
    p.pending = [] ∨ ∀ e ∈ entries, ∀ key ∈ e.file, key ∉ p.pending := by
  by_cases hne : p.pending = []
  · cases entries <;> simp [next, hne]
  · rw [or_iff_right hne]
    induction entries with
    | nil => simp [next]
    | cons e others ih =>
      by_cases hmem : ∃ key ∈ e.file, key ∈ p.pending
      · obtain ⟨key, hfile, hkey⟩ := hmem
        rw [next_cons_of_mem hfile hkey]
        exact iff_of_false nofun fun h => h e (by simp) key hfile hkey
      · have hnot : ∀ key ∈ e.file, key ∉ p.pending := fun key hfile hkey =>
          hmem ⟨key, hfile, hkey⟩
        rw [next_cons_of_notMem hne hnot, ih, List.forall_mem_cons, and_iff_right hnot]

/-- While the channel stays open, a batch with nothing pending is told from the want of entries. -/
theorem ask_eq (p : Progress) (entries : List LogEntry) : p.ask entries =
    if p.pending = [] then .ended
    else match p.next entries with
      | some result => .outcome result
      | none => .waiting := by
  by_cases hne : p.pending = []
  · cases entries <;> simp [ask, hne]
  · rw [if_neg hne]
    induction entries with
    | nil => simp [ask, next, hne]
    | cons e others ih =>
      rw [ask, if_neg (by simpa using hne)]
      cases hfile : e.file with
      | none => rw [next_cons_of_notMem hne (by simp [hfile]), ← ih]
      | some key =>
        by_cases hkey : key ∈ p.pending
        · simp [next_cons_of_mem hfile hkey, hkey]
        · rw [next_cons_of_notMem hne (by simpa [hfile] using hkey), ← ih]
          simp [hkey]

theorem ask_eq_ended_iff : p.ask entries = .ended ↔ p.pending = [] := by
  rw [ask_eq]
  split
  next hnil => simp [hnil]
  next hne => split <;> simp [hne]

theorem ask_eq_waiting_iff : p.ask entries = .waiting ↔
    p.pending ≠ [] ∧ ∀ e ∈ entries, ∀ key ∈ e.file, key ∉ p.pending := by
  rw [ask_eq]
  split
  next hnil => simp [hnil]
  next hne =>
    have hnone : p.next entries = none ↔ ∀ e ∈ entries, ∀ key ∈ e.file, key ∉ p.pending := by
      rw [next_eq_none_iff, or_iff_right hne]
    rw [and_iff_right hne, ← hnone]
    split <;> simp [*]

/-- An outcome that is there is not changed by what comes later. -/
theorem next_append (h : p.next entries = some (found, q, rest)) (more : List LogEntry) :
    p.next (entries ++ more) = some (found, q, rest ++ more) := by
  obtain ⟨front, key, rfl, hfront, hfile, hkey, rfl, hcount⟩ := next_eq_some h
  rw [List.append_assoc, List.cons_append, next_passing hfront hfile hkey, ← hcount]

@[simp] theorem reported_nil : reported [] = [] := rfl

theorem reported_concat (hfile : found.2.file = some key) :
    reported (given ++ [found]) = reported given ++ [key] := by
  simp [reported, hfile]

theorem Tally.of_start (paths : List Path) (entries : List LogEntry) :
    Tally (keys paths) entries [] (start paths) entries where
  total := rfl
  pending := by simp [start, keys]
  nodup := List.nodup_nil
  subset := List.nil_subset (keys paths)
  length := rfl
  counts := rfl
  first := by simp
  read := ⟨[], rfl, by simp⟩

/-- A key is pending when it belongs to the batch and was not reported. -/
theorem Tally.mem_pending (h : Tally batch entries given p unread) :
    key ∈ p.pending ↔ key ∈ batch ∧ key ∉ reported given := by
  simp [h.pending]

theorem Tally.nodup_pending (h : Tally batch entries given p unread) : p.pending.Nodup := by
  rw [h.pending]
  exact (nodup_distinct batch).filter _

/-- The keys with an outcome and those without are the keys of the batch. -/
theorem Tally.length_add (h : Tally batch entries given p unread) :
    given.length + p.pending.length = p.total := by
  have hdisjoint : (reported given).Disjoint p.pending := fun key hold hnew =>
    (h.mem_pending.mp hnew).2 hold
  have hall : (reported given ++ p.pending).Perm (distinct batch) := by
    rw [List.perm_ext_iff_of_nodup (h.nodup.append h.nodup_pending hdisjoint)
      (nodup_distinct batch)]
    intro key
    rw [List.mem_append, h.mem_pending, mem_distinct]
    by_cases hold : key ∈ reported given
    · simp [hold, h.subset hold]
    · simp [hold]
  rw [h.total, ← hall.length_eq, List.length_append, h.length]

/-- The next outcome carries the next count. -/
theorem Tally.count_next (h : Tally batch entries given p unread) (hkey : key ∈ p.pending) :
    p.total - (p.pending.erase key).length = given.length + 1 := by
  have hlength := h.length_add
  have herase := List.length_erase_add_one hkey
  omega

theorem Tally.pending_next (h : Tally batch entries given p unread) (key : String) :
    p.pending.erase key = (distinct batch).filter (· ∉ reported given ++ [key]) := by
  rw [h.nodup_pending.erase_eq_filter, h.pending, List.filter_filter]
  refine List.filter_congr fun other _ => ?_
  by_cases hother : other = key <;> simp [hother]

/-- The entries up to the next outcome are about other batches or about keys that were reported, and
so that outcome is the first one about a new key. -/
theorem Tally.first_next (h : Tally batch entries given p unread) {front : List LogEntry}
    (hunread : unread = front ++ entry :: rest)
    (hfront : ∀ e ∈ front, ∀ other ∈ e.file, other ∉ p.pending) (hfile : entry.file = some key)
    (hkey : key ∈ p.pending) : ∃ read, entries = read ++ entry :: rest ∧
      (∀ e ∈ read, ∀ other ∈ e.file, other ∈ batch → other ∈ reported given) ∧
      FirstAbout batch (reported given) entries entry := by
  obtain ⟨hmem, hnew⟩ := h.mem_pending.mp hkey
  obtain ⟨read, hentries, hread⟩ := h.read
  have hpassed : ∀ e ∈ read ++ front, ∀ other ∈ e.file, other ∈ batch → other ∈ reported given := by
    intro e he other hother hbatch
    rcases List.mem_append.mp he with he | he
    · exact hread e he other hother hbatch
    · by_contra hnot
      exact hfront e he other hother (h.mem_pending.mpr ⟨hbatch, hnot⟩)
  have hsplit : entries = (read ++ front) ++ entry :: rest := by
    rw [hentries, hunread, List.append_assoc]
  exact ⟨read ++ front, hsplit, hpassed, read ++ front, key, rest, hsplit, hfile, hmem, hnew,
    hpassed⟩

/-- One more outcome. -/
theorem Tally.step (h : Tally batch entries given p unread)
    (hnext : p.next unread = some (found, q, rest)) :
    Tally batch entries (given ++ [found]) q rest := by
  obtain ⟨front, key, hunread, hfront, hfile, hkey, rfl, hcount⟩ := next_eq_some hnext
  obtain ⟨hmem, hnew⟩ := h.mem_pending.mp hkey
  obtain ⟨read, hentries, hread, hfirst⟩ := h.first_next hunread hfront hfile hkey
  have hreported : reported (given ++ [found]) = reported given ++ [key] := reported_concat hfile
  constructor
  case total => exact h.total
  case pending =>
    rw [hreported]
    exact h.pending_next key
  case nodup =>
    rw [hreported]
    exact h.nodup.append (List.nodup_singleton key) (by simpa using hnew)
  case subset =>
    rw [hreported]
    exact List.append_subset.mpr ⟨h.subset, by simpa using hmem⟩
  case length =>
    rw [hreported, List.length_append, List.length_append, h.length, List.length_singleton,
      List.length_singleton]
  case counts =>
    rw [List.map_append, h.counts, List.length_append, List.length_singleton, List.range'_concat]
    simp [hcount, h.count_next hkey, Nat.add_comm]
  case first =>
    intro k other hk
    rcases Nat.lt_or_ge k given.length with hlt | hge
    · rw [List.getElem?_append_left hlt] at hk
      rw [List.take_append_of_le_length hlt.le]
      exact h.first k other hk
    · rw [List.getElem?_append_right hge, List.getElem?_singleton] at hk
      split at hk
      next hk0 =>
        -- the outcome that is new comes after all that were given
        obtain rfl : k = given.length := by omega
        obtain rfl := Option.some.inj hk
        rwa [List.take_left]
      next => simp at hk
  case read =>
    refine ⟨read ++ [found.2], by simp [hentries], fun e he other hother hbatch => ?_⟩
    rw [hreported, List.mem_append]
    rcases List.mem_append.mp he with he | he
    · exact .inl (hread e he other hother hbatch)
    · obtain rfl : e = found.2 := by simpa using he
      obtain rfl : key = other := Option.some.inj (hfile.symm.trans hother)
      exact .inr (by simp)

/-- Of the entries that were read, none is about a key without an outcome. -/
theorem Tally.none_new_iff (h : Tally batch entries given p unread) :
    (∀ e ∈ unread, ∀ key ∈ e.file, key ∉ p.pending) ↔
      ∀ e ∈ entries, ∀ key ∈ e.file, key ∈ batch → key ∈ reported given := by
  obtain ⟨read, rfl, hread⟩ := h.read
  simp only [h.mem_pending, List.forall_mem_append, not_and, not_not]
  exact (and_iff_right hread).symm

theorem Given.tally (h : Given paths entries given p unread) :
    Tally (keys paths) entries given p unread := by
  induction h with
  | start => exact .of_start paths entries
  | outcome _ hnext ih => exact ih.step hnext

theorem Given.append (h : Given paths entries given p unread) (more : List LogEntry) :
    Given paths (entries ++ more) given p (unread ++ more) := by
  induction h with
  | start => exact .start
  | outcome _ hnext ih => exact ih.outcome (next_append hnext more)

/-- A batch comes to its end, whatever was given before, when the entries are about all of its
keys. -/
theorem Given.exists_ended (h : Given paths entries given p unread)
    (hall : ∀ path ∈ paths, ∃ e ∈ entries, e.file = some path.display) :
    ∃ others q rest, Given paths entries (given ++ others) q rest ∧ q.ask rest = .ended := by
  induction hlength : p.pending.length generalizing given p unread with
  | zero =>
    refine ⟨[], p, unread, by rwa [List.append_nil], ?_⟩
    exact ask_eq_ended_iff.mpr (List.length_eq_zero_iff.mp hlength)
  | succ n ih =>
    have hne : p.pending ≠ [] := List.ne_nil_of_length_eq_add_one hlength
    cases hnext : p.next unread with
    | none =>
      obtain ⟨key, hkey⟩ := List.exists_mem_of_ne_nil p.pending hne
      obtain ⟨hbatch, hnew⟩ := h.tally.mem_pending.mp hkey
      obtain ⟨path, hpath, rfl⟩ := mem_keys.mp hbatch
      obtain ⟨e, he, hfile⟩ := hall path hpath
      have hunread := (or_iff_right hne).mp (next_eq_none_iff.mp hnext)
      exact absurd (h.tally.none_new_iff.mp hunread e he _ hfile hbatch) hnew
    | some result =>
      obtain ⟨found, q, rest⟩ := result
      obtain ⟨front, key, -, -, -, hkey, rfl, -⟩ := next_eq_some hnext
      have herase := List.length_erase_add_one hkey
      obtain ⟨others, last, left, hgiven, hended⟩ :=
        ih (h.outcome hnext) (show (p.pending.erase key).length = n by omega)
      rw [List.append_assoc] at hgiven
      exact ⟨found :: others, last, left, hgiven, hended⟩

/-- Outcomes about two paths are one outcome exactly when the paths are equal. -/
def EachOnce (paths : List Path) (given : List (Nat × LogEntry)) : Prop :=
  ∀ a ∈ paths, ∀ b ∈ paths, ∀ i j : Nat, (reported given)[i]? = some a.display →
    (reported given)[j]? = some b.display → (i = j ↔ a.parts = b.parts)

/-- Paths have one key exactly when they are equal. -/
def Apart (paths : List Path) : Prop :=
  ∀ a ∈ paths, ∀ b ∈ paths, (a.display = b.display ↔ a.parts = b.parts)

/-- Paths that are UTF-8 are shown as they are, so their keys tell them apart when none of them is
spelled in two ways. -/
theorem apart_ofText_iff (texts : List String) : Apart (texts.map Path.ofText) ↔
    ∀ s ∈ texts, ∀ t ∈ texts, (Path.ofText s).parts = (Path.ofText t).parts → s = t := by
  unfold Apart
  simp only [List.forall_mem_map, Path.display_ofText]
  constructor
  · intro h s hs t ht
    exact (h s hs t ht).mpr
  · intro h s hs t ht
    refine ⟨?_, h s hs t ht⟩
    rintro rfl
    rfl

theorem Tally.position_inj_iff (h : Tally batch entries given p unread) {i j : Nat}
    {other : String} (hi : (reported given)[i]? = some key)
    (hj : (reported given)[j]? = some other) : i = j ↔ key = other := by
  constructor
  · rintro rfl
    exact Option.some.inj (hi.symm.trans hj)
  · rintro rfl
    obtain ⟨hlt, -⟩ := List.getElem?_eq_some_iff.mp hi
    exact (List.getElem?_inj hlt h.nodup).mp (hi.trans hj.symm)

/-- Each path has an outcome of its own, whatever is logged, exactly when the keys tell them
apart. -/
theorem forall_eachOnce_iff : (∀ entries given p unread, Given paths entries given p unread →
    EachOnce paths given) ↔ Apart paths := by
  constructor
  · intro h a ha b hb
    -- the entries of the batch itself are about all of its keys
    let entries := paths.map fun path => Compile.outcomeEntry path (.ok ())
    have hall : ∀ path ∈ paths, ∃ e ∈ entries, e.file = some path.display := fun path hpath =>
      ⟨_, List.mem_map_of_mem hpath, rfl⟩
    have hstart : Given paths entries [] (start paths) entries := .start
    obtain ⟨given, p, unread, hgiven, hended⟩ := hstart.exists_ended hall
    rw [List.nil_append] at hgiven
    have hreported : ∀ path ∈ paths, path.display ∈ reported given := by
      intro path hpath
      by_contra hnew
      have hpending := hgiven.tally.mem_pending.mpr ⟨mem_keys.mpr ⟨path, hpath, rfl⟩, hnew⟩
      exact List.ne_nil_of_mem hpending (ask_eq_ended_iff.mp hended)
    obtain ⟨i, hi⟩ := List.mem_iff_getElem?.mp (hreported a ha)
    obtain ⟨j, hj⟩ := List.mem_iff_getElem?.mp (hreported b hb)
    rw [← hgiven.tally.position_inj_iff hi hj]
    exact h entries given p unread hgiven a ha b hb i j hi hj
  · intro h entries given p unread hgiven a ha b hb i j hi hj
    rw [hgiven.tally.position_inj_iff hi hj]
    exact h a ha b hb

/-- Where the keys tell the paths apart, there are as many keys as paths. -/
theorem card_keys (h : Apart paths) :
    (keys paths).toFinset.card = (paths.map Path.parts).toFinset.card := by
  let pairs := paths.toFinset.image fun path => (path.display, path.parts)
  have hfirst : pairs.image Prod.fst = (keys paths).toFinset := by
    ext key
    simp [pairs, keys]
  have hsecond : pairs.image Prod.snd = (paths.map Path.parts).toFinset := by
    ext parts
    simp [pairs]
  have hpairs : ∀ x ∈ pairs, ∀ y ∈ pairs, (x.1 = y.1 ↔ x.2 = y.2) := by
    intro x hx y hy
    obtain ⟨a, ha, rfl⟩ := Finset.mem_image.mp hx
    obtain ⟨b, hb, rfl⟩ := Finset.mem_image.mp hy
    exact h a (List.mem_toFinset.mp ha) b (List.mem_toFinset.mp hb)
  have hfirstInj : Set.InjOn Prod.fst (pairs : Set (String × List Path.Name)) :=
    fun x hx y hy heq => Prod.ext heq ((hpairs x hx y hy).mp heq)
  have hsecondInj : Set.InjOn Prod.snd (pairs : Set (String × List Path.Name)) :=
    fun x hx y hy heq => Prod.ext ((hpairs x hx y hy).mpr heq) heq
  rw [← hfirst, ← hsecond, Finset.card_image_of_injOn hfirstInj,
    Finset.card_image_of_injOn hsecondInj]

/-- After any number of outcomes of a batch: they carry the counts from one on, each is the first
entry about a key of the batch that was not reported before, and no key is reported twice. Asking
once more says that the batch has ended exactly when all of its keys have been reported, which is
when as many outcomes have been given as it has keys, and it only waits when no entry is left that
is about another one; when the entries are about all keys, the end is reached. Entries that are
logged later change none of this. So each path of the batch has an outcome of its own, whatever is
logged, exactly when equal paths, and no others, have one key; then there are as many outcomes in
the end as different paths. Paths that are UTF-8 are such when none of them is spelled in two
ways. -/
theorem progress_exact (h : Given paths entries given p unread) :
    given.map Prod.fst = List.range' 1 given.length ∧
    (∀ k found, given[k]? = some found →
      FirstAbout (keys paths) (reported (given.take k)) entries found.2) ∧
    (reported given).Nodup ∧ reported given ⊆ keys paths ∧
    (p.ask unread = .ended ↔ keys paths ⊆ reported given) ∧
    (p.ask unread = .ended ↔ given.length = (start paths).total) ∧
    (start paths).total = (keys paths).toFinset.card ∧
    (p.ask unread = .waiting ↔ ¬ keys paths ⊆ reported given ∧
      ∀ e ∈ entries, ∀ key ∈ e.file, key ∈ keys paths → key ∈ reported given) ∧
    (p.next unread = none ↔ p.ask unread = .ended ∨ p.ask unread = .waiting) ∧
    ((∀ path ∈ paths, ∃ e ∈ entries, e.file = some path.display) →
      ∃ others q rest, Given paths entries (given ++ others) q rest ∧ q.ask rest = .ended) ∧
    (∀ more, Given paths (entries ++ more) given p (unread ++ more)) ∧
    ((∀ entries given p unread, Given paths entries given p unread → EachOnce paths given) ↔
      Apart paths) ∧
    (Apart paths → (start paths).total = (paths.map Path.parts).toFinset.card) ∧
    ∀ texts : List String, paths = texts.map Path.ofText → (Apart paths ↔
      ∀ s ∈ texts, ∀ t ∈ texts, (Path.ofText s).parts = (Path.ofText t).parts → s = t) := by
  have htally := h.tally
  have hended : p.pending = [] ↔ keys paths ⊆ reported given := by
    rw [htally.pending, List.filter_eq_nil_iff]
    simp [List.subset_def]
  have hcount : p.pending = [] ↔ given.length = (start paths).total := by
    have hlength := htally.length_add
    have htotal : (start paths).total = p.total := htally.total.symm
    rw [← List.length_eq_zero_iff]
    omega
  refine ⟨htally.counts, htally.first, htally.nodup, htally.subset,
    ask_eq_ended_iff.trans hended, ask_eq_ended_iff.trans hcount, start_total paths, ?_, ?_,
    h.exists_ended, h.append, forall_eachOnce_iff, fun hapart => ?_, ?_⟩
  · rw [ask_eq_waiting_iff, ← hended]
    exact and_congr_right fun _ => htally.none_new_iff
  · rw [ask_eq]
    split
    next hnil => simp [next_eq_none_iff, hnil]
    next => cases p.next unread <;> simp
  · rw [start_total, card_keys hapart]
  · rintro texts rfl
    exact apart_ofText_iff texts

/-- A path given twice, an entry of another batch, and two entries about one path. -/
theorem progress_exact_repeated :
    let paths := ["a", "b", "a"].map Path.ofText
    let a := (LogEntry.success "Compiled a").about "a"
    let b := (LogEntry.error "b: unreadable").about "b"
    let c := (LogEntry.success "Compiled c").about "c"
    let entries := [.info "Reading b", c, b, .info "Reading a", b, a]
    ∃ p unread, Given paths entries [(1, b), (2, a)] p unread ∧
      p.ask unread = .ended ∧ keys paths ⊆ reported [(1, b), (2, a)] := by
  intro paths a b c entries
  have h : Given paths entries [(1, b), (2, a)] ⟨[], 2⟩ [] :=
    .outcome (.outcome .start rfl) rfl
  obtain ⟨-, -, -, -, hall, hcount, -⟩ := progress_exact h
  have hended : ask ⟨[], 2⟩ [] = .ended := hcount.mpr rfl
  exact ⟨_, _, h, hended, hall.mp hended⟩

/-- Two files whose names are not UTF-8 have one key: the batch has ended after the outcome of the
one, while the other is still being compiled. And one file under two spellings of its path has two
keys, and is reported twice. -/
theorem progress_miscounts :
    (let a : Path := ⟨0xFF :: Encoding.Utf8.encode ".json"⟩
      let b : Path := ⟨0xFE :: Encoding.Utf8.encode ".json"⟩
      let outcome := Compile.outcomeEntry a (.ok ())
      a.parts ≠ b.parts ∧ (start [a, b]).total = 1 ∧
        ∃ p, Given [a, b] [outcome] [(1, outcome)] p [] ∧ p.ask [] = .ended) ∧
    let a := Path.ofText "x/a.json"
    let b := Path.ofText "x//a.json"
    let first := Compile.outcomeEntry a (.ok ())
    let second := Compile.outcomeEntry b (.ok ())
    a.parts = b.parts ∧ (start [a, b]).total = 2 ∧
      ∃ p, Given [a, b] [first, second] [(1, first), (2, second)] p [] := by
  refine ⟨⟨by decide, by decide, ⟨[], 1⟩, .outcome .start rfl, rfl⟩, by decide, by decide,
    ⟨[], 2⟩, .outcome (.outcome .start rfl) rfl⟩

end EventRules.Progress
