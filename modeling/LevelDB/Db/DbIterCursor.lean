import LevelDB.Db.DbIter
import LevelDB.Db.Lookup

/-!
# What the user-level iterator shows

The entries under the internal iterator, as of a sequence number, are a sorted list of user keys with
values.  Every call of `DBIter` that returns moves as a cursor over that list moves.  Forward calls always
return.  A backward call scans entries until it has left the newest entry of a key that is a value; since
the internal iterator is only moved at entries within the sequence number, it returns if and only if the
scan meets no other entry.
-/

namespace LevelDB.Db.DbIter

open Format Library Lookup List Iterator

variable {K V : Type*} [LinearOrder K] {entries : List (Entry K V)} {s : ℕ}

/-! ## The user-level view -/

/-- The newest entry of its user key up to the sequence number, and a value. -/
def Shown (entries : List (Entry K V)) (s : ℕ) (e : Entry K V) : Prop :=
  e.sequence ≤ s ∧ e.type = some .kTypeValue ∧
    ∀ x ∈ entries, x.userKey = e.userKey → x.sequence ≤ s → x.tag ≤ e.tag

instance : DecidablePred (Shown entries s) := fun e ↦
  inferInstanceAs (Decidable (e.sequence ≤ s ∧ e.type = some .kTypeValue ∧
    ∀ x ∈ entries, x.userKey = e.userKey → x.sequence ≤ s → x.tag ≤ e.tag))

def shownEntries (entries : List (Entry K V)) (s : ℕ) : List (Entry K V) :=
  entries.filter fun e ↦ Shown entries s e

def pair (e : Entry K V) : K × V := (e.userKey, e.value)

/-- The user keys whose newest entry up to the sequence number is a value, with that value. -/
def userView (entries : List (Entry K V)) (s : ℕ) : List (K × V) := (shownEntries entries s).map pair

def Call.apply {ρ : Type*} (J : Iterator ρ (K × V) K) (position : ρ) : Call K → ρ
  | .seekToFirst => J.seekToFirst position
  | .seekToLast => J.seekToLast position
  | .seek target => J.seek target position
  | .next => J.next position
  | .prev => J.prev position

def cursorAfter (view : List (K × V)) (calls : List (Call K)) : Option ℕ :=
  calls.foldl (Call.apply (ofList Prod.fst view)) none

omit [LinearOrder K] in
theorem Entry.resolve_eq_some {e : Entry K V} {v : V} :
    e.resolve = some v ↔ e.type = some .kTypeValue ∧ e.value = v := by
  unfold Entry.resolve
  split <;> simp_all

omit [LinearOrder K] in
theorem shown_iff_isNewest (hparse : AllParse entries) {e : Entry K V} (he : e ∈ entries) :
    Shown entries s e ↔ e.type = some .kTypeValue ∧
      Newest.IsNewest Entry.userKey Entry.tag (parsed {x | x ∈ entries}) e.userKey (snapshotTag s) e := by
  constructor
  · rintro ⟨hseq, htype, hnewest⟩
    refine ⟨htype, ⟨he, hparse e he⟩, rfl, (Entry.tag_le_snapshotTag (hparse e he) s).mpr hseq, ?_⟩
    rintro x ⟨hx, hsome⟩ huser htag
    exact hnewest x hx huser ((Entry.tag_le_snapshotTag hsome s).mp htag)
  · rintro ⟨htype, hnewest⟩
    refine ⟨(Entry.tag_le_snapshotTag (hparse e he) s).mp hnewest.le_bound, htype, fun x hx huser hseq ↦ ?_⟩
    exact hnewest.newest x ⟨hx, hparse x hx⟩ huser ((Entry.tag_le_snapshotTag (hparse x hx) s).mpr hseq)

/-- The keys of the view and what they are paired with are given by the newest entries. -/
theorem mem_userView (hparse : AllParse entries) {k : K} {v : V} :
    (k, v) ∈ userView entries s ↔ Resolves {e | e ∈ entries} k s (some v) := by
  simp only [userView, shownEntries, mem_map, mem_filter, decide_eq_true_eq]
  constructor
  · rintro ⟨e, ⟨he, hshown⟩, hpair⟩
    obtain ⟨rfl, rfl⟩ := Prod.ext_iff.mp hpair
    obtain ⟨htype, hnewest⟩ := (shown_iff_isNewest hparse he).mp hshown
    exact ⟨some e, hnewest, Entry.resolve_eq_some.mpr ⟨htype, rfl⟩⟩
  · rintro ⟨found, hfinds, hvalue⟩
    obtain ⟨e, rfl, hresolve⟩ := Option.bind_eq_some_iff.mp hvalue
    obtain ⟨htype, rfl⟩ := Entry.resolve_eq_some.mp hresolve
    have he : e ∈ entries := hfinds.mem.1
    obtain rfl := hfinds.key_eq
    exact ⟨e, ⟨he, (shown_iff_isNewest hparse he).mpr ⟨htype, hfinds⟩⟩, rfl⟩

theorem not_shown_of_hidden {x e : Entry K V} (hx : x ∈ entries) (huser : x.userKey = e.userKey)
    (hseq : x.sequence ≤ s) (hlt : x.key < e.key) : ¬Shown entries s e := by
  intro hshown
  exact absurd (hshown.2.2 x hx huser hseq) (Nat.not_le.mpr (InternalKey.tag_lt_of_lt hlt huser))

theorem shownEntries_sorted (hsorted : SortedEntries entries) :
    (shownEntries entries s).Pairwise fun a b ↦ a.userKey < b.userKey := by
  refine (hsorted.filter _).imp_of_mem fun {a b} ha hb hlt ↦ ?_
  obtain ⟨ha, hashown⟩ := mem_filter.mp ha
  obtain ⟨-, hbshown⟩ := mem_filter.mp hb
  refine lt_of_le_of_ne (InternalKey.userKey_le_of_lt hlt) fun heq ↦ ?_
  exact not_shown_of_hidden ha heq (of_decide_eq_true hashown).1 hlt (of_decide_eq_true hbshown)

theorem userView_sorted (hsorted : SortedEntries entries) :
    (userView entries s).Pairwise fun a b ↦ a.1 < b.1 :=
  pairwise_map.mpr (shownEntries_sorted hsorted)

/-! ## The forward scan -/

def position (entries : List (Entry K V)) (i : ℕ) : Option ℕ := if i < entries.length then some i else none

/-- The iterator shows the entry, with its internal iterator where its direction wants it. -/
inductive Agrees (entries : List (Entry K V)) (s : ℕ) :
    DBIter (Option ℕ) K V → Option (Entry K V) → Prop
  | invalid {it} : it.valid = false → Agrees entries s it none
  | forward {it i e} : it.valid = true → it.direction = .kForward → it.iter = some i →
      entries[i]? = some e → Shown entries s e → Agrees entries s it (some e)
  | reverse {it j e} : it.valid = true → it.direction = .kReverse →
      it.iter = (ofList Entry.key entries).prev (some j) → entries[j]? = some e →
      (∀ x ∈ entries.take j, x.userKey < e.userKey) → it.saved = some (pair e) →
      Shown entries s e → Agrees entries s it (some e)

theorem get_position (i : ℕ) : (ofList Entry.key entries).get (position entries i) = entries[i]? := by
  unfold position
  split
  · rfl
  · exact (getElem?_eq_none (Nat.not_lt.mp ‹_›)).symm

theorem next_position {i : ℕ} (hi : i < entries.length) :
    (ofList Entry.key entries).next (position entries i) = position entries (i + 1) := by
  unfold position
  rw [if_pos hi]
  rfl

/-- What the forward scan knows at index `i`: the visible entries before it that share a user key with a
later one are at or below the key to skip, and no entry from here on is below it. -/
structure Skipped (entries : List (Entry K V)) (s i : ℕ) (skip : Option K) : Prop where
  hidden : ∀ x ∈ entries.take i, x.sequence ≤ s → ∀ e ∈ entries.drop i, e.userKey = x.userKey →
    ∃ k, skip = some k ∧ e.userKey ≤ k
  le : ∀ k, skip = some k → ∀ e ∈ entries.drop i, k ≤ e.userKey

def Stops (entries : List (Entry K V)) (s : ℕ) (skip : Option K) (e : Entry K V) : Prop :=
  Shown entries s e ∧ ∀ k, skip = some k → k < e.userKey

instance {skip : Option K} : DecidablePred (Stops entries s skip) := fun e ↦
  inferInstanceAs (Decidable (Shown entries s e ∧ ∀ k, skip = some k → k < e.userKey))

section Forward

variable {i : ℕ} {e : Entry K V} {skip : Option K}

omit [LinearOrder K] in
theorem drop_eq_cons (he : entries[i]? = some e) : entries.drop i = e :: entries.drop (i + 1) := by
  obtain ⟨hi, rfl⟩ := List.getElem?_eq_some_iff.mp he
  exact drop_eq_getElem_cons hi

omit [LinearOrder K] in
theorem take_succ_eq (he : entries[i]? = some e) : entries.take (i + 1) = entries.take i ++ [e] := by
  rw [take_add_one, he]
  rfl

section

variable (hsorted : SortedEntries entries)
include hsorted

theorem key_lt_of_mem_drop (he : entries[i]? = some e) {x : Entry K V} (hx : x ∈ entries.drop (i + 1)) :
    e.key < x.key := by
  have hdrop := hsorted.drop (i := i)
  rw [drop_eq_cons he, pairwise_cons] at hdrop
  exact hdrop.1 x hx

omit hsorted in
/-- An entry that is not visible or that the key to skip covers is passed. -/
theorem Skipped.pass (h : Skipped entries s i skip) (he : entries[i]? = some e)
    (hpass : e.sequence ≤ s → ∃ k, skip = some k ∧ e.userKey ≤ k) : Skipped entries s (i + 1) skip := by
  constructor
  · intro x hx hseq y hy huser
    rw [take_succ_eq he, mem_append, mem_singleton] at hx
    rcases hx with hx | rfl
    · exact h.hidden x hx hseq y (drop_eq_cons he ▸ mem_cons_of_mem e hy) huser
    · rw [huser]
      exact hpass hseq
  · intro k hk y hy
    exact h.le k hk y (drop_eq_cons he ▸ mem_cons_of_mem e hy)

theorem Skipped.deletion (h : Skipped entries s i skip) (he : entries[i]? = some e) :
    Skipped entries s (i + 1) (some e.userKey) := by
  have hle : ∀ y ∈ entries.drop (i + 1), e.userKey ≤ y.userKey := fun y hy ↦
    InternalKey.userKey_le_of_lt (key_lt_of_mem_drop hsorted he hy)
  constructor
  · intro x hx hseq y hy huser
    refine ⟨e.userKey, rfl, ?_⟩
    rw [take_succ_eq he, mem_append, mem_singleton] at hx
    rcases hx with hx | rfl
    · have hy' : y ∈ entries.drop i := drop_eq_cons he ▸ mem_cons_of_mem e hy
      obtain ⟨k, hk, hyk⟩ := h.hidden x hx hseq y hy' huser
      exact hyk.trans (h.le k hk e (drop_eq_cons he ▸ mem_cons_self))
    · exact huser.le
  · rintro k ⟨⟩ y hy
    exact hle y hy

omit hsorted in
theorem find_pass (he : entries[i]? = some e) (hnot : ¬Stops entries s skip e) :
    ((entries.drop i).find? fun x ↦ Stops entries s skip x) =
      (entries.drop (i + 1)).find? fun x ↦ Stops entries s skip x := by
  rw [drop_eq_cons he, find?_cons_of_neg (by simpa using hnot)]

theorem find_deletion (h : Skipped entries s i skip) (he : entries[i]? = some e) (hseq : e.sequence ≤ s)
    (htype : e.type = some .kTypeDeletion) :
    ((entries.drop i).find? fun x ↦ Stops entries s skip x) =
      (entries.drop (i + 1)).find? fun x ↦ Stops entries s (some e.userKey) x := by
  have hnot : ¬Stops entries s skip e := by
    rintro ⟨⟨-, hvalue, -⟩, -⟩
    simp [htype] at hvalue
  rw [find_pass he hnot]
  apply find?_congr
  intro x hx
  have hlt := key_lt_of_mem_drop hsorted he hx
  rw [decide_eq_decide]
  constructor
  · rintro ⟨hshown, -⟩
    refine ⟨hshown, ?_⟩
    rintro k ⟨⟩
    refine lt_of_le_of_ne (InternalKey.userKey_le_of_lt hlt) fun huser ↦ ?_
    exact not_shown_of_hidden (mem_of_getElem? he) huser hseq hlt hshown
  · rintro ⟨hshown, hskip⟩
    refine ⟨hshown, fun k hk ↦ ?_⟩
    exact (h.le k hk e (drop_eq_cons he ▸ mem_cons_self)).trans_lt (hskip _ rfl)

/-- A visible value that is not to be skipped is the newest visible entry of its user key. -/
theorem Skipped.stops (h : Skipped entries s i skip) (he : entries[i]? = some e) (hseq : e.sequence ≤ s)
    (htype : e.type = some .kTypeValue) (hskip : ∀ k, skip = some k → k < e.userKey) :
    Stops entries s skip e := by
  refine ⟨⟨hseq, htype, fun x hx huser hxseq ↦ ?_⟩, hskip⟩
  rw [← take_append_drop i entries, mem_append, drop_eq_cons he, mem_cons] at hx
  rcases hx with hx | rfl | hx
  · obtain ⟨k, hk, hle⟩ := h.hidden x hx hxseq e (drop_eq_cons he ▸ mem_cons_self) huser.symm
    exact absurd (hskip k hk) (not_lt.mpr hle)
  · exact le_rfl
  · exact (InternalKey.tag_lt_of_lt (key_lt_of_mem_drop hsorted he hx) huser.symm).le

theorem findNextUserEntry_agrees (hparse : AllParse entries) {fuel : ℕ} {it it' : DBIter (Option ℕ) K V}
    (h : Skipped entries s i skip) (hiter : it.iter = position entries i)
    (hdirection : it.direction = .kForward)
    (hcall : findNextUserEntry (ofList Entry.key entries) s fuel skip it = some it') :
    Agrees entries s it' ((entries.drop i).find? fun x ↦ Stops entries s skip x) := by
  induction fuel generalizing i skip it with
  | zero => cases hcall
  | succ fuel ih =>
    rw [findNextUserEntry, hiter, get_position] at hcall
    cases he : entries[i]? with
    | none =>
      rw [he] at hcall
      cases hcall
      rw [drop_eq_nil_of_le (getElem?_eq_none_iff.mp he)]
      exact Agrees.invalid rfl
    | some e =>
      have hi := (List.getElem?_eq_some_iff.mp he).1
      obtain ⟨t, ht⟩ := Option.isSome_iff_exists.mp (hparse e (mem_of_getElem? he))
      simp only [he, Entry.parseInternalKey_key, ht, Option.map_some, next_position hi] at hcall
      split at hcall
      · rename_i hseq
        cases t with
        | kTypeDeletion =>
          rw [find_deletion hsorted h he hseq ht]
          refine ih (h.deletion hsorted he) ?_ ?_ hcall
          · rfl
          · exact hdirection
        | kTypeValue =>
          simp only at hcall
          split at hcall
          · rename_i hhidden
            obtain ⟨k, hk, hle⟩ := (Option.any_eq_true _ _).mp hhidden
            have hle := of_decide_eq_true hle
            rw [find_pass he fun hstops ↦ absurd (hstops.2 k hk) (not_lt.mpr hle)]
            refine ih (h.pass he fun _ ↦ ⟨k, hk, hle⟩) ?_ ?_ hcall
            · rfl
            · exact hdirection
          · rename_i hhidden
            have hskip : ∀ k, skip = some k → k < e.userKey := by
              rintro k rfl
              simpa using hhidden
            have hstops := h.stops hsorted he hseq ht hskip
            cases hcall
            rw [drop_eq_cons he, find?_cons_of_pos (by simpa using hstops)]
            exact Agrees.forward rfl hdirection (if_pos hi) he hstops.1
      · rename_i hseq
        rw [find_pass he fun hstops ↦ hseq hstops.1.1]
        refine ih (h.pass he fun hle ↦ absurd hle hseq) ?_ ?_ hcall
        · rfl
        · exact hdirection

end

/-- A forward scan returns. -/
theorem findNextUserEntry_returns {it : DBIter (Option ℕ) K V} (hiter : it.iter = position entries i)
    (hi : i ≤ entries.length) {fuel : ℕ} (hfuel : entries.length < fuel + i) :
    (findNextUserEntry (ofList Entry.key entries) s fuel skip it).isSome := by
  induction fuel generalizing i skip it with
  | zero => omega
  | succ fuel ih =>
    rw [findNextUserEntry, hiter, get_position]
    cases he : entries[i]? with
    | none => rfl
    | some e =>
      have hi := (List.getElem?_eq_some_iff.mp he).1
      have hnext : ∀ skip status, (findNextUserEntry (ofList Entry.key entries) s fuel skip
          { it with iter := position entries (i + 1), status := status }).isSome :=
        fun skip status ↦ ih rfl (by omega) (by omega)
      simp only [next_position hi]
      split
      · exact hnext skip _
      · split
        · split
          · exact hnext _ it.status
          · split
            · exact hnext _ it.status
            · rfl
        · exact hnext _ it.status

end Forward

/-! ## The backward scan -/

/-- A backward scan of the first `n` entries gets through: from the last of them down to the first entry,
or down to the entry before the newest one of a user key when that is a value, every sequence number is
within the snapshot. -/
def ScanClear (entries : List (Entry K V)) (s n : ℕ) : Prop :=
  ∃ m ≤ n, (∀ j e, m ≤ j → j < n → entries[j]? = some e → e.sequence ≤ s) ∧
    (m = 0 ∨ m + 1 < n ∧ ∃ a b, entries[m]? = some a ∧ entries[m + 1]? = some b ∧
      a.userKey < b.userKey ∧ b.type = some .kTypeValue)

/-- What the backward scan of the first `n` entries knows with `m` of them left. -/
structure Scanned (entries : List (Entry K V)) (s n m : ℕ) (saved : Option (K × V)) : Prop where
  le : m ≤ n
  le_length : n ≤ entries.length
  visible : ∀ j e, m ≤ j → j < n → entries[j]? = some e → e.sequence ≤ s
  saved_eq : saved = if m < n then entries[m]?.bind fun e ↦ e.resolve.map fun v ↦ (e.userKey, v) else none
  passed : ∀ j e, m < j → j < n → entries[j]? = some e → ¬Shown entries s e

section Backward

variable {n m : ℕ} {saved : Option (K × V)} {e : Entry K V}

omit [LinearOrder K] in
theorem savedOf_eq {t : ValueType} (ht : e.type = some t) :
    savedOf t e = e.resolve.map fun v ↦ (e.userKey, v) := by
  unfold Entry.resolve
  rw [ht]
  cases t <;> rfl

omit [LinearOrder K] in
theorem Scanned.start (hn : n ≤ entries.length) : Scanned entries s n n none where
  le := le_rfl
  le_length := hn
  visible j _ hj hlt := by omega
  saved_eq := by simp
  passed j _ hj hlt := by omega

omit [LinearOrder K] in
theorem Scanned.saved_eq_some (h : Scanned entries s n m saved) {p : K × V} (hp : saved = some p) :
    m < n ∧ ∃ b, entries[m]? = some b ∧ b.type = some .kTypeValue ∧ p = pair b := by
  have hsaved := h.saved_eq.symm.trans hp
  split at hsaved
  · obtain ⟨b, hb, hmap⟩ := Option.bind_eq_some_iff.mp hsaved
    obtain ⟨v, hv, rfl⟩ := Option.map_eq_some_iff.mp hmap
    obtain ⟨htype, rfl⟩ := Entry.resolve_eq_some.mp hv
    exact ⟨‹_›, b, hb, htype, rfl⟩
  · cases hsaved

omit [LinearOrder K] in
theorem Scanned.saved_eq_none (h : Scanned entries s n m saved) (hnone : saved = none) (hm : m < n)
    (he : entries[m]? = some e) : e.type ≠ some .kTypeValue := by
  intro htype
  have hsaved := h.saved_eq.symm.trans hnone
  rw [if_pos hm, he, Option.bind_some, Entry.resolve_eq_some.mpr ⟨htype, rfl⟩] at hsaved
  cases hsaved

section

variable (hsorted : SortedEntries entries)

include hsorted

/-- One more entry is passed, which is not of a smaller user key than the saved one. -/
theorem Scanned.step (h : Scanned entries s n (m + 1) saved) (he : entries[m]? = some e)
    (hseq : e.sequence ≤ s) (hnot : ∀ p, saved = some p → ¬e.userKey < p.1) :
    Scanned entries s n m (e.resolve.map fun v ↦ (e.userKey, v)) where
  le := by have := h.le; omega
  le_length := h.le_length
  visible j x hj hlt hx := by
    rcases hj.eq_or_lt with rfl | hj
    · rw [he] at hx
      cases hx
      exact hseq
    · exact h.visible j x hj hlt hx
  saved_eq := by
    rw [if_pos (by have := h.le; omega), he, Option.bind_some]
  passed j x hj hlt hx := by
    rcases (Nat.succ_le_of_lt hj).eq_or_lt with rfl | hj
    · -- the entry just passed before is a deletion, or an older one of this user key
      cases hsaved : saved with
      | none => exact fun hshown ↦ h.saved_eq_none hsaved hlt hx hshown.2.1
      | some p =>
        obtain ⟨-, b, hb, -, rfl⟩ := h.saved_eq_some hsaved
        obtain rfl : x = b := Option.some.inj (hx.symm.trans hb)
        have hkey : e.key < x.key := by
          apply key_lt_of_mem_drop hsorted he
          rw [drop_eq_cons hx]
          exact mem_cons_self
        have huser := (InternalKey.userKey_le_of_lt hkey).lt_or_eq.resolve_left (hnot _ hsaved)
        exact not_shown_of_hidden (mem_of_getElem? he) huser hseq hkey
    · exact h.passed j x hj hlt hx

/-- Where the loop ends: at the start of the entries, or before an entry of a smaller user key than the
saved one. -/
def Ends (entries : List (Entry K V)) (s m : ℕ) (saved : Option (K × V)) : Prop :=
  m = 0 ∨ ∃ m' a p, m = m' + 1 ∧ entries[m']? = some a ∧ a.sequence ≤ s ∧ saved = some p ∧ a.userKey < p.1

theorem findPrevLoop_spec (hparse : AllParse entries) {fuel : ℕ} {it it' : DBIter (Option ℕ) K V}
    (h : Scanned entries s n m saved) (hiter : it.iter = (ofList Entry.key entries).prev (some m))
    (hcall : findPrevLoop (ofList Entry.key entries) s fuel saved it = some it') :
    ∃ m' saved', Scanned entries s n m' saved' ∧ Ends entries s m' saved' ∧ it' = { it with
        iter := (ofList Entry.key entries).prev (some m'), saved := saved' } := by
  induction fuel generalizing m saved it with
  | zero => cases hcall
  | succ fuel ih =>
    rw [findPrevLoop, hiter] at hcall
    cases m with
    | zero =>
      cases hcall
      exact ⟨0, saved, h, .inl rfl, rfl⟩
    | succ m =>
      have hm : m < entries.length := by have := h.le; have := h.le_length; omega
      obtain ⟨e, he⟩ : ∃ e, entries[m]? = some e := ⟨_, getElem?_eq_getElem hm⟩
      obtain ⟨t, ht⟩ := Option.isSome_iff_exists.mp (hparse e (mem_of_getElem? he))
      simp only [prev_ofList_succ, get_ofList_some, he, Entry.parseInternalKey_key, ht,
        Option.map_some] at hcall
      split at hcall
      · rename_i hseq
        split at hcall
        · rename_i hbreak
          obtain ⟨p, hp, hlt⟩ := (Option.any_eq_true _ _).mp hbreak
          cases hcall
          exact ⟨m + 1, saved, h, .inr ⟨m, e, p, rfl, he, hseq, hp, of_decide_eq_true hlt⟩, rfl⟩
        · rename_i hbreak
          have hnot : ∀ p, saved = some p → ¬e.userKey < p.1 := by
            rintro p rfl
            simpa using hbreak
          have hstep := h.step hsorted he hseq hnot
          rw [savedOf_eq ht] at hcall
          obtain ⟨m', saved', hm', hends, rfl⟩ := ih hstep rfl hcall
          exact ⟨m', saved', hm', hends, rfl⟩
      · exact ih h hiter hcall

omit hsorted in
theorem getLast?_shown (hm : m < n) (he : entries[m]? = some e) (hshown : Shown entries s e)
    (hafter : ∀ j x, m < j → j < n → entries[j]? = some x → ¬Shown entries s x) :
    ((entries.take n).filter fun x ↦ Shown entries s x).getLast? = some e := by
  have hget : (entries.take n)[m]? = some e := by rw [getElem?_take_of_lt hm, he]
  have hrest : ((entries.take n).drop (m + 1)).filter (fun x ↦ Shown entries s x) = [] := by
    rw [filter_eq_nil_iff]
    intro x hx
    obtain ⟨j, hj⟩ := mem_iff_getElem?.mp hx
    rw [getElem?_drop, getElem?_take] at hj
    split at hj
    · simpa using hafter _ x (by omega) ‹_› hj
    · cases hj
  rw [← take_append_drop m (entries.take n), drop_eq_cons hget, filter_append,
    filter_cons_of_pos (by simpa using hshown), hrest, getLast?_concat]

section

variable (hparse : AllParse entries)
include hparse

/-- A backward scan that returns is at the last shown entry. -/
theorem findPrevUserEntry_agrees {fuel : ℕ} {it it' : DBIter (Option ℕ) K V} (hn : n ≤ entries.length)
    (hiter : it.iter = (ofList Entry.key entries).prev (some n)) (hdirection : it.direction = .kReverse)
    (hcall : findPrevUserEntry (ofList Entry.key entries) s fuel it = some it') :
    Agrees entries s it' ((entries.take n).filter fun x ↦ Shown entries s x).getLast? := by
  obtain ⟨it₁, hloop, hit'⟩ := Option.map_eq_some_iff.mp hcall
  obtain ⟨m, saved, hscanned, hends, rfl⟩ := findPrevLoop_spec hsorted hparse (.start hn) hiter hloop
  cases hsaved : saved with
  | none =>
    rw [hsaved] at hit'
    cases hit'
    -- nothing is saved, so the loop went to the start of the entries
    obtain rfl : m = 0 := hends.resolve_right fun ⟨_, _, _, _, _, _, hp, _⟩ ↦ by simp [hsaved] at hp
    have hnone : (entries.take n).filter (fun x ↦ Shown entries s x) = [] := by
      rw [filter_eq_nil_iff]
      intro x hx
      obtain ⟨j, hj⟩ := mem_iff_getElem?.mp hx
      rw [getElem?_take] at hj
      split at hj
      · rename_i hjn
        rw [decide_eq_true_eq]
        rcases Nat.eq_zero_or_pos j with rfl | hpos
        · exact fun hshown ↦ hscanned.saved_eq_none hsaved hjn hj hshown.2.1
        · exact hscanned.passed j x hpos hjn hj
      · cases hj
    rw [hnone]
    exact Agrees.invalid rfl
  | some p =>
    obtain ⟨hm, e, he, htype, rfl⟩ := hscanned.saved_eq_some hsaved
    rw [hsaved] at hit'
    cases hit'
    -- all entries before it are of smaller user keys, so none is newer
    have hbefore : ∀ x ∈ entries.take m, x.userKey < e.userKey := by
      intro x hx
      rcases hends with rfl | ⟨m', a, p, rfl, ha, -, hp, hlt⟩
      · simp at hx
      · obtain rfl : pair e = p := Option.some.inj (hsaved.symm.trans hp)
        rw [take_succ_eq ha, mem_append, mem_singleton] at hx
        rcases hx with hx | rfl
        · have hcross := (take_append_drop m' entries ▸ hsorted : SortedEntries _)
          have hxa := (pairwise_append.mp hcross).2.2 x hx a (drop_eq_cons ha ▸ mem_cons_self)
          exact (InternalKey.userKey_le_of_lt hxa).trans_lt hlt
        · exact hlt
    have hshown : Shown entries s e := by
      refine ⟨hscanned.visible m e le_rfl hm he, htype, fun x hx huser _ ↦ ?_⟩
      rw [← take_append_drop m entries, mem_append, drop_eq_cons he, mem_cons] at hx
      rcases hx with hx | rfl | hx
      · exact absurd huser (hbefore x hx).ne
      · exact le_rfl
      · exact (InternalKey.tag_lt_of_lt (key_lt_of_mem_drop hsorted he hx) huser.symm).le
    rw [getLast?_shown hm he hshown hscanned.passed]
    exact Agrees.reverse rfl hdirection rfl he hbefore rfl hshown

omit hsorted in
/-- The loop returns from any point of a scan that gets through. -/
theorem findPrevLoop_returns {low : ℕ}
    (hvisible : ∀ j e, low ≤ j → j < n → entries[j]? = some e → e.sequence ≤ s)
    (hlow : low = 0 ∨ low + 1 < n ∧ ∃ a b, entries[low]? = some a ∧ entries[low + 1]? = some b ∧
      a.userKey < b.userKey ∧ b.type = some .kTypeValue) (hsorted : SortedEntries entries)
    {it : DBIter (Option ℕ) K V} (h : Scanned entries s n m saved) (hm : low = 0 ∨ low < m)
    (hiter : it.iter = (ofList Entry.key entries).prev (some m)) {fuel : ℕ} (hfuel : m < fuel) :
    ∃ it', findPrevLoop (ofList Entry.key entries) s fuel saved it = some it' := by
  obtain ⟨fuel, rfl⟩ := Nat.exists_eq_add_of_lt hfuel
  induction m generalizing saved it with
  | zero =>
    refine ⟨{ it with saved := saved }, ?_⟩
    rw [findPrevLoop, hiter]
    rfl
  | succ m ih =>
    have hlt : m < n := by have := h.le; omega
    have hlength : m < entries.length := by have := h.le_length; omega
    obtain ⟨e, he⟩ : ∃ e, entries[m]? = some e := ⟨_, getElem?_eq_getElem hlength⟩
    obtain ⟨t, ht⟩ := Option.isSome_iff_exists.mp (hparse e (mem_of_getElem? he))
    have hseq := hvisible m e (by omega) hlt he
    have hstep : findPrevLoop (ofList Entry.key entries) s (m + 1 + fuel + 1) saved it =
        if saved.any fun pair ↦ e.userKey < pair.1 then some { it with saved := saved }
        else findPrevLoop (ofList Entry.key entries) s (m + fuel + 1) (savedOf t e)
          { it with iter := (ofList Entry.key entries).prev (some m) } := by
      rw [Nat.add_right_comm m 1 fuel, findPrevLoop, hiter]
      simp only [prev_ofList_succ, get_ofList_some, he, Entry.parseInternalKey_key, ht,
        Option.map_some, if_pos hseq]
    by_cases hbreak : saved.any fun pair ↦ e.userKey < pair.1
    · exact ⟨_, hstep.trans (if_pos hbreak)⟩
    · have hnot : ∀ p, saved = some p → ¬e.userKey < p.1 := by
        rintro p rfl
        simpa using hbreak
      -- at the lower end the loop would have stopped
      have hm' : low = 0 ∨ low < m := by
        rcases hlow with hzero | ⟨hlown, a, b, ha, hb, hab, hbtype⟩
        · exact .inl hzero
        · refine hm.imp_right fun hm ↦ (Nat.le_of_lt_succ hm).lt_or_eq.resolve_right ?_
          rintro rfl
          obtain rfl : e = a := Option.some.inj (he.symm.trans ha)
          refine hnot (pair b) ?_ hab
          rw [h.saved_eq, if_pos hlown, hb, Option.bind_some, Entry.resolve_eq_some.mpr ⟨hbtype, rfl⟩]
          rfl
      have hscanned := h.step hsorted he hseq hnot
      rw [← savedOf_eq ht] at hscanned
      rw [hstep, if_neg hbreak]
      exact ih hscanned hm' rfl (by omega)

/-- A backward scan that returns has met no entry past the snapshot. -/
theorem findPrevUserEntry_clear {it it' : DBIter (Option ℕ) K V} (hn : n ≤ entries.length)
    (hiter : it.iter = (ofList Entry.key entries).prev (some n)) {fuel : ℕ}
    (hcall : findPrevUserEntry (ofList Entry.key entries) s fuel it = some it') :
    ScanClear entries s n := by
  obtain ⟨it₁, hloop, -⟩ := Option.map_eq_some_iff.mp hcall
  obtain ⟨m, saved, h, hends, -⟩ := findPrevLoop_spec hsorted hparse (.start hn) hiter hloop
  rcases hends with rfl | ⟨m', a, p, rfl, ha, haseq, hp, hlt⟩
  · exact ⟨0, Nat.zero_le n, h.visible, .inl rfl⟩
  · obtain ⟨hm, b, hb, htype, rfl⟩ := h.saved_eq_some hp
    refine ⟨m', by omega, fun j x hj hjn hx ↦ ?_, .inr ⟨hm, a, b, ha, hb, hlt, htype⟩⟩
    rcases hj.eq_or_lt with rfl | hj
    · obtain rfl : a = x := Option.some.inj (ha.symm.trans hx)
      exact haseq
    · exact h.visible j x hj hjn hx

theorem findPrevUserEntry_returns {it : DBIter (Option ℕ) K V} (hn : n ≤ entries.length)
    (hiter : it.iter = (ofList Entry.key entries).prev (some n)) (hclear : ScanClear entries s n) {fuel : ℕ}
    (hfuel : n < fuel) : ∃ it', findPrevUserEntry (ofList Entry.key entries) s fuel it = some it' := by
  obtain ⟨low, hlow, hvisible, hstop⟩ := hclear
  have hm : low = 0 ∨ low < n := hstop.imp_right fun h ↦ by omega
  obtain ⟨it', hloop⟩ := findPrevLoop_returns hparse hvisible hstop hsorted (.start hn) hm hiter hfuel
  exact ⟨_, Option.map_eq_some_iff.mpr ⟨it', hloop, rfl⟩⟩

end

def below (entries : List (Entry K V)) (k : K) : ℕ := (entries.filter fun e ↦ e.userKey < k).length

theorem below_split (k : K) :
    entries.take (below entries k) = (entries.filter fun e ↦ e.userKey < k) ∧
      ∀ x ∈ entries.drop (below entries k), ¬x.userKey < k := by
  have hmono : entries.Pairwise fun x y ↦
      decide (y.userKey < k) = true → decide (x.userKey < k) = true := by
    refine hsorted.imp fun hlt hy ↦ ?_
    exact decide_eq_true ((InternalKey.userKey_le_of_lt hlt).trans_lt (of_decide_eq_true hy))
  have hsplit := SortedLists.filter_append_filter_not hmono
  constructor
  · have htake := @take_left _ (entries.filter fun e ↦ e.userKey < k)
      (entries.filter fun e ↦ !decide (e.userKey < k))
    rwa [hsplit] at htake
  · intro x hx
    have hdrop := @drop_left _ (entries.filter fun e ↦ e.userKey < k)
      (entries.filter fun e ↦ !decide (e.userKey < k))
    rw [hsplit] at hdrop
    rw [below, hdrop, mem_filter] at hx
    simpa using hx.2

omit hsorted in
theorem below_le (entries : List (Entry K V)) (k : K) : below entries k ≤ entries.length :=
  length_filter_le _ _

theorem below_le_index {i : ℕ} (he : entries[i]? = some e) : below entries e.userKey ≤ i := by
  by_contra hlt
  have hmem : e ∈ entries.take (below entries e.userKey) := by
    apply mem_of_getElem?
    rw [getElem?_take_of_lt (Nat.not_le.mp hlt), he]
  rw [(below_split hsorted e.userKey).1, mem_filter] at hmem
  simp at hmem

/-- The first entry of a user key has exactly the smaller ones before it. -/
theorem below_eq {j : ℕ} (he : entries[j]? = some e) (hbefore : ∀ x ∈ entries.take j, x.userKey < e.userKey) :
    below entries e.userKey = j := by
  refine le_antisymm (below_le_index hsorted he) (Nat.not_lt.mp fun hlt ↦ ?_)
  have hlength : below entries e.userKey < entries.length := hlt.trans (List.getElem?_eq_some_iff.mp he).1
  obtain ⟨x, hx⟩ : ∃ x, entries[below entries e.userKey]? = some x := ⟨_, getElem?_eq_getElem hlength⟩
  apply (below_split hsorted e.userKey).2 x (drop_eq_cons hx ▸ mem_cons_self)
  apply hbefore
  apply mem_of_getElem?
  rw [getElem?_take_of_lt hlt, hx]

/-- The loop that leaves a user key ends before its first entry. -/
theorem leaveKey_eq {k : K} {i fuel : ℕ} {iter : Option ℕ} (hi : below entries k ≤ i)
    (hlength : i ≤ entries.length) (hcall : leaveKey (ofList Entry.key entries) k fuel (some i) = some iter) :
    iter = (ofList Entry.key entries).prev (some (below entries k)) := by
  obtain ⟨htake, hdrop⟩ := below_split hsorted k
  induction fuel generalizing i with
  | zero => cases hcall
  | succ fuel ih =>
    rw [leaveKey] at hcall
    cases i with
    | zero =>
      cases hcall
      rw [Nat.le_zero.mp hi]
    | succ i =>
      obtain ⟨x, hx⟩ : ∃ x, entries[i]? = some x := ⟨_, getElem?_eq_getElem hlength⟩
      simp only [prev_ofList_succ, get_ofList_some, hx] at hcall
      split at hcall
      · rename_i hlt
        cases hcall
        have hle : ¬below entries k ≤ i := by
          intro hle
          refine hdrop x ?_ hlt
          apply mem_of_getElem?
          rw [getElem?_drop, Nat.add_sub_cancel' hle, hx]
        rw [show below entries k = i + 1 by omega, prev_ofList_succ]
      · rename_i hnot
        refine ih ?_ (Nat.le_of_succ_le hlength) hcall
        by_contra hlt
        have hmem : x ∈ entries.take (below entries k) := by
          apply mem_of_getElem?
          rw [getElem?_take_of_lt (Nat.not_le.mp hlt), hx]
        rw [htake, mem_filter] at hmem
        exact hnot (of_decide_eq_true hmem.2)

end

theorem leaveKey_returns {k : K} {i fuel : ℕ} (hfuel : i < fuel) :
    ∃ iter, leaveKey (ofList Entry.key entries) k fuel (some i) = some iter := by
  induction fuel generalizing i with
  | zero => omega
  | succ fuel ih =>
    rw [leaveKey]
    cases i with
    | zero => exact ⟨none, rfl⟩
    | succ i =>
      rw [prev_ofList_succ]
      split
      · exact ⟨_, rfl⟩
      · split
        · exact ⟨_, rfl⟩
        · exact ih (Nat.lt_of_succ_lt_succ hfuel)

end Backward

/-! ## The calls -/

def Call.target (entries : List (Entry K V)) (s : ℕ) (shown : Option (Entry K V)) :
    Call K → Option (Entry K V)
  | .seekToFirst => (shownEntries entries s).head?
  | .seekToLast => (shownEntries entries s).getLast?
  | .seek t => (shownEntries entries s).find? fun e ↦ t ≤ e.userKey
  | .next => shown.bind fun e ↦ (shownEntries entries s).find? fun x ↦ e.userKey < x.userKey
  | .prev => shown.bind fun e ↦
      ((shownEntries entries s).filter fun x ↦ x.userKey < e.userKey).getLast?

/-- The condition under which a call returns: a backward scan meets no entry past the snapshot before it
has left the newest entry of a user key that is a value. -/
def CallClear (entries : List (Entry K V)) (s : ℕ) (it : DBIter (Option ℕ) K V) : Call K → Prop
  | .seekToLast => ScanClear entries s entries.length
  | .prev => ∀ p, current (ofList Entry.key entries) it = some p →
      ScanClear entries s (below entries p.1)
  | _ => True

section Calls

variable {it it' : DBIter (Option ℕ) K V} {i fuel : ℕ} {e : Entry K V} {shown : Option (Entry K V)}

theorem Agrees.current_eq (h : Agrees entries s it shown) :
    current (ofList Entry.key entries) it = shown.map pair := by
  unfold current
  cases h with
  | invalid hvalid => rw [hvalid]; rfl
  | forward hvalid hdirection hiter he _ =>
    rw [hvalid, hdirection, hiter, get_ofList_some, he]
    rfl
  | reverse hvalid hdirection _ _ _ hsaved _ =>
    rw [hvalid, hdirection, hsaved]
    rfl

theorem Agrees.valid_eq (h : Agrees entries s it shown) : it.valid = shown.isSome := by
  cases h <;> assumption

/-- A scan from index `i` that nothing shown and past the key to skip stands before finds the first such
entry of all. -/
theorem find_stops {skip : Option K} {q : Entry K V → Prop} [DecidablePred q]
    (htake : ∀ x ∈ entries.take i, Shown entries s x → ¬q x)
    (hdrop : ∀ x ∈ entries.drop i, Shown entries s x → ((∀ k, skip = some k → k < x.userKey) ↔ q x)) :
    ((entries.drop i).find? fun x ↦ Stops entries s skip x) =
      (shownEntries entries s).find? fun x ↦ q x := by
  have hnone : (entries.take i).find? (fun x ↦ decide (Shown entries s x) && decide (q x)) = none := by
    rw [find?_eq_none]
    intro x hx
    simpa using htake x hx
  have hsame : ((entries.drop i).find? fun x ↦ Stops entries s skip x) =
      (entries.drop i).find? fun x ↦ decide (Shown entries s x) && decide (q x) := by
    apply find?_congr
    intro x hx
    rw [← Bool.decide_and, decide_eq_decide]
    exact and_congr_right fun hshown ↦ hdrop x hx hshown
  calc ((entries.drop i).find? fun x ↦ Stops entries s skip x)
    _ = ((entries.take i).find? fun x ↦ decide (Shown entries s x) && decide (q x)).or
        ((entries.drop i).find? fun x ↦ decide (Shown entries s x) && decide (q x)) := by
      rw [hnone, Option.none_or, hsame]
    _ = entries.find? fun x ↦ decide (Shown entries s x) && decide (q x) := by
      rw [← find?_append, take_append_drop]
    _ = (shownEntries entries s).find? fun x ↦ q x := by
      rw [shownEntries, find?_filter]
      simp only [decide_eq_true_eq, Bool.decide_and]

theorem key_le_of_mem_take (hsorted : SortedEntries entries) (he : entries[i]? = some e) {x : Entry K V}
    (hx : x ∈ entries.take i) : x.key < e.key := by
  have hcross := (take_append_drop i entries ▸ hsorted : SortedEntries _)
  exact (pairwise_append.mp hcross).2.2 x hx e (drop_eq_cons he ▸ mem_cons_self)

theorem userKey_le_of_mem_drop (hsorted : SortedEntries entries) (he : entries[i]? = some e)
    {x : Entry K V} (hx : x ∈ entries.drop i) : e.userKey ≤ x.userKey := by
  rw [drop_eq_cons he, mem_cons] at hx
  rcases hx with rfl | hx
  · exact le_rfl
  · exact InternalKey.userKey_le_of_lt (key_lt_of_mem_drop hsorted he hx)

theorem skipCurrent_agrees (hsorted : SortedEntries entries) (hparse : AllParse entries)
    (he : entries[i]? = some e) (hiter : it.iter = some i) (hdirection : it.direction = .kForward)
    (hcall : skipCurrent (ofList Entry.key entries) s fuel it = some it') :
    Agrees entries s it'
      ((shownEntries entries s).find? fun x ↦ e.userKey < x.userKey) := by
  have hle : ∀ x ∈ entries.take i, x.userKey ≤ e.userKey := fun x hx ↦
    InternalKey.userKey_le_of_lt (key_le_of_mem_take hsorted he hx)
  have hskipped : Skipped entries s i (some e.userKey) := by
    constructor
    · intro x hx _ y _ huser
      exact ⟨e.userKey, rfl, huser.trans_le (hle x hx)⟩
    · rintro k ⟨⟩ y hy
      exact userKey_le_of_mem_drop hsorted he hy
  rw [skipCurrent, hiter, get_ofList_some, he, Option.bind_some] at hcall
  have hposition : it.iter = position entries i := by
    rw [hiter, position, if_pos (List.getElem?_eq_some_iff.mp he).1]
  have hagrees := findNextUserEntry_agrees hsorted hparse hskipped hposition hdirection hcall
  rwa [find_stops (q := fun x ↦ e.userKey < x.userKey)] at hagrees
  · exact fun x hx _ ↦ not_lt.mpr (hle x hx)
  · exact fun x _ _ ↦ ⟨fun h ↦ h _ rfl, by rintro h k ⟨⟩; exact h⟩

theorem reenter (he : entries[i]? = some e) : (if ((ofList Entry.key entries).get
        ((ofList Entry.key entries).prev (some i))).isNone then
      (ofList Entry.key entries).seekToFirst
        ((ofList Entry.key entries).prev (some i))
    else (ofList Entry.key entries).next
      ((ofList Entry.key entries).prev (some i))) = some i := by
  obtain ⟨hi, -⟩ := List.getElem?_eq_some_iff.mp he
  cases i with
  | zero =>
    have hne : entries ≠ [] := by rintro rfl; simp at hi
    simp [ofList, hne]
  | succ i =>
    rw [prev_ofList_succ, get_ofList_some, getElem?_eq_getElem (by omega)]
    exact next_ofList hi

section

variable (hsorted : SortedEntries entries)

include hsorted

/-- The common end of `Seek` and `SeekToFirst`, from an index before which no shown entry is wanted. -/
theorem forwardFrom_agrees (hparse : AllParse entries) {q : Entry K V → Prop} [DecidablePred q]
    (htake : ∀ x ∈ entries.take i, x.sequence ≤ s → ∀ y ∈ entries.drop i, y.userKey ≠ x.userKey)
    (hbefore : ∀ x ∈ entries.take i, Shown entries s x → ¬q x) (hafter : ∀ x ∈ entries.drop i, q x)
    (hcall : forwardFrom (ofList Entry.key entries) s fuel (position entries i) it = some it') :
    Agrees entries s it' ((shownEntries entries s).find? fun x ↦ q x) := by
  have hfind : ((entries.drop i).find? fun x ↦ Stops entries s none x) =
      (shownEntries entries s).find? fun x ↦ q x :=
    find_stops hbefore fun x hx _ ↦ ⟨fun _ ↦ hafter x hx, fun _ k hk ↦ by cases hk⟩
  have hskipped : Skipped entries s i none := by
    constructor
    · exact fun x hx hseq y hy huser ↦ absurd huser (htake x hx hseq y hy)
    · intro k hk
      cases hk
  rw [← hfind]
  unfold forwardFrom at hcall
  split at hcall
  · rename_i hnone
    cases hcall
    rw [get_position, Option.isNone_iff_eq_none, getElem?_eq_none_iff] at hnone
    rw [drop_eq_nil_of_le hnone]
    exact Agrees.invalid rfl
  · exact findNextUserEntry_agrees hsorted hparse hskipped rfl rfl hcall

theorem seekToFirst_agrees (hparse : AllParse entries)
    (hcall : seekToFirst (ofList Entry.key entries) s fuel it = some it') :
    Agrees entries s it' (shownEntries entries s).head? := by
  have hposition : (ofList Entry.key entries).seekToFirst it.iter = position entries 0 := by
    cases entries <;> rfl
  rw [seekToFirst, hposition] at hcall
  have hagrees := forwardFrom_agrees (q := fun _ ↦ True) hsorted hparse (by simp) (by simp) (by simp) hcall
  have hhead : ((shownEntries entries s).find? fun _ ↦ decide True) = (shownEntries entries s).head? := by
    cases shownEntries entries s <;> rfl
  rwa [hhead] at hagrees

theorem seek_position (lkey : InternalKey K) (start : Option ℕ) :
    ∃ i, (ofList Entry.key entries).seek lkey start = position entries i ∧
      (∀ x ∈ entries.take i, x.key < lkey) ∧ ∀ x ∈ entries.drop i, lkey ≤ x.key := by
  change ∃ i, (entries.findIdx? fun x ↦ lkey ≤ x.key) = _ ∧ _
  cases hfind : entries.findIdx? fun x ↦ decide (lkey ≤ x.key) with
  | none =>
    rw [findIdx?_eq_none_iff] at hfind
    refine ⟨entries.length, by simp [position], ?_, by simp⟩
    intro x hx
    simpa using hfind x (mem_of_mem_take hx)
  | some i =>
    obtain ⟨hi, hge, hbefore⟩ := findIdx?_eq_some_iff_getElem.mp hfind
    have he : entries[i]? = some entries[i] := getElem?_eq_getElem hi
    refine ⟨i, (if_pos hi).symm, ?_, ?_⟩
    · intro x hx
      obtain ⟨j, hj, rfl⟩ := mem_take_iff_getElem.mp hx
      simpa using hbefore j (by omega)
    · intro x hx
      rw [drop_eq_cons he, mem_cons] at hx
      rcases hx with rfl | hx
      · exact of_decide_eq_true hge
      · exact (of_decide_eq_true hge).trans (key_lt_of_mem_drop hsorted he hx).le

theorem seek_agrees (hparse : AllParse entries) {t : K}
    (hcall : seek (ofList Entry.key entries) s fuel t it = some it') :
    Agrees entries s it' ((shownEntries entries s).find? fun x ↦ t ≤ x.userKey) := by
  obtain ⟨i, hseek, hbefore, hafter⟩ := seek_position hsorted (lookupKey t s) it.iter
  -- an entry before the lookup key is of a smaller user key or past the snapshot
  have hsmaller : ∀ x ∈ entries.take i, x.sequence ≤ s → x.userKey < t := by
    intro x hx hseq
    rcases hbefore x hx with hlt | ⟨huser, htag⟩
    · exact hlt
    · have hsome := hparse x (mem_of_mem_take hx)
      exact absurd ((Entry.tag_le_snapshotTag hsome s).mpr hseq) (Nat.not_le.mpr htag)
  have hlarger : ∀ x ∈ entries.drop i, t ≤ x.userKey := fun x hx ↦
    InternalKey.userKey_le_of_le (hafter x hx)
  rw [seek, hseek] at hcall
  refine forwardFrom_agrees hsorted hparse ?_ ?_ hlarger hcall
  · exact fun x hx hseq y hy ↦ ((hsmaller x hx hseq).trans_le (hlarger y hy)).ne'
  · exact fun x hx hshown ↦ not_le.mpr (hsmaller x hx hshown.1)

theorem next_agrees (hparse : AllParse entries) (h : Agrees entries s it (some e))
    (hcall : next (ofList Entry.key entries) s fuel it = some it') :
    Agrees entries s it' ((shownEntries entries s).find? fun x ↦ e.userKey < x.userKey) := by
  unfold next at hcall
  cases h with
  | forward hvalid hdirection hiter he _ =>
    rw [hdirection] at hcall
    exact skipCurrent_agrees hsorted hparse he hiter hdirection hcall
  | reverse hvalid hdirection hiter he _ _ _ =>
    simp only [hdirection, hiter, reenter he, get_ofList_some, he, Option.isNone_some,
      Bool.false_eq_true, if_false] at hcall
    exact skipCurrent_agrees hsorted hparse he rfl rfl hcall

theorem filter_below (k : K) : ((entries.take (below entries k)).filter fun x ↦ Shown entries s x) =
      (shownEntries entries s).filter fun x ↦ x.userKey < k := by
  rw [(below_split hsorted k).1, shownEntries, filter_filter, filter_filter]
  exact filter_congr fun x _ ↦ Bool.and_comm _ _

theorem prev_agrees (hparse : AllParse entries) (h : Agrees entries s it (some e))
    (hcall : prev (ofList Entry.key entries) s fuel it = some it') :
    Agrees entries s it' ((shownEntries entries s).filter fun x ↦ x.userKey < e.userKey).getLast? := by
  rw [← filter_below hsorted e.userKey]
  have hle := below_le entries e.userKey
  unfold prev at hcall
  cases h with
  | forward hvalid hdirection hiter he _ =>
    simp only [hdirection, hiter, get_ofList_some, he, Option.bind_some] at hcall
    obtain ⟨iter, hleave, hcall⟩ := Option.bind_eq_some_iff.mp hcall
    have hi := (List.getElem?_eq_some_iff.mp he).1
    obtain rfl := leaveKey_eq hsorted (below_le_index hsorted he) hi.le hleave
    split at hcall
    · rename_i hnone
      cases hcall
      cases hn : below entries e.userKey with
      | zero => exact Agrees.invalid rfl
      | succ n =>
        rw [hn, prev_ofList_succ, get_ofList_some, getElem?_eq_getElem (by omega)] at hnone
        cases hnone
    · exact findPrevUserEntry_agrees hsorted hparse hle rfl rfl hcall
  | reverse hvalid hdirection hiter he hbefore _ _ =>
    simp only [hdirection] at hcall
    rw [← below_eq hsorted he hbefore] at hiter
    exact findPrevUserEntry_agrees hsorted hparse hle hiter hdirection hcall

end

omit [LinearOrder K] in
theorem seekToLast_eq [LinearOrder K] (start : Option ℕ) : (ofList Entry.key entries).seekToLast start =
      (ofList Entry.key entries).prev (some entries.length) := by
  cases entries <;> rfl

theorem seekToLast_agrees (hsorted : SortedEntries entries) (hparse : AllParse entries)
    (hcall : seekToLast (ofList Entry.key entries) s fuel it = some it') :
    Agrees entries s it' (shownEntries entries s).getLast? := by
  have hagrees := findPrevUserEntry_agrees hsorted hparse le_rfl (seekToLast_eq it.iter) rfl hcall
  rwa [take_length] at hagrees

theorem call_agrees (hsorted : SortedEntries entries) (hparse : AllParse entries) {c : Call K}
    (h : Agrees entries s it shown) (hallows : it.allows c = true)
    (hcall : call (ofList Entry.key entries) s fuel it c = some it') :
    Agrees entries s it' (c.target entries s shown) := by
  cases c with
  | seekToFirst => exact seekToFirst_agrees hsorted hparse hcall
  | seekToLast => exact seekToLast_agrees hsorted hparse hcall
  | seek t => exact seek_agrees hsorted hparse hcall
  | next =>
    obtain ⟨e, rfl⟩ := Option.isSome_iff_exists.mp (h.valid_eq.symm.trans hallows)
    exact next_agrees hsorted hparse h hcall
  | prev =>
    obtain ⟨e, rfl⟩ := Option.isSome_iff_exists.mp (h.valid_eq.symm.trans hallows)
    exact prev_agrees hsorted hparse h hcall

/-! ## Which calls return -/

theorem forwardFrom_returns (it : DBIter (Option ℕ) K V) (i : ℕ) :
    ∃ it', forwardFrom (ofList Entry.key entries) s (entries.length + 1) (position entries i) it =
      some it' := by
  unfold forwardFrom
  split
  · exact ⟨_, rfl⟩
  · rename_i hsome
    rw [get_position, Option.isNone_iff_eq_none, getElem?_eq_none_iff, Nat.not_le] at hsome
    exact Option.isSome_iff_exists.mp (findNextUserEntry_returns rfl hsome.le (by omega))

theorem skipCurrent_returns (he : entries[i]? = some e) (hiter : it.iter = some i) :
    ∃ it', skipCurrent (ofList Entry.key entries) s (entries.length + 1) it = some it' := by
  have hi := (List.getElem?_eq_some_iff.mp he).1
  have hposition : it.iter = position entries i := by rw [hiter, position, if_pos hi]
  rw [skipCurrent, hiter, get_ofList_some, he, Option.bind_some]
  exact Option.isSome_iff_exists.mp (findNextUserEntry_returns hposition hi.le (by omega))

theorem next_returns (h : Agrees entries s it (some e)) :
    ∃ it', call (ofList Entry.key entries) s (entries.length + 1) it .next = some it' := by
  simp only [call, next]
  cases h with
  | forward hvalid hdirection hiter he _ =>
    rw [hdirection]
    exact skipCurrent_returns he hiter
  | reverse hvalid hdirection hiter he _ _ _ =>
    simp only [hdirection, hiter, reenter he, get_ofList_some, he, Option.isNone_some,
      Bool.false_eq_true, if_false]
    exact skipCurrent_returns he rfl

theorem seekToFirst_returns (it : DBIter (Option ℕ) K V) :
    ∃ it', call (ofList Entry.key entries) s (entries.length + 1) it .seekToFirst = some it' := by
  have hposition : (ofList Entry.key entries).seekToFirst it.iter = position entries 0 := by
    cases entries <;> rfl
  simp only [call, seekToFirst, hposition]
  exact forwardFrom_returns it 0

theorem seek_returns (hsorted : SortedEntries entries) (it : DBIter (Option ℕ) K V) (t : K) :
    ∃ it', call (ofList Entry.key entries) s (entries.length + 1) it (.seek t) = some it' := by
  obtain ⟨i, hseek, -⟩ := seek_position hsorted (lookupKey t s) it.iter
  simp only [call, seek, hseek]
  exact forwardFrom_returns it i

theorem prev_returns_iff (hsorted : SortedEntries entries) (hparse : AllParse entries)
    (h : Agrees entries s it (some e)) :
    Returns (ofList Entry.key entries) s it .prev ↔ ScanClear entries s (below entries e.userKey) := by
  have hle := below_le entries e.userKey
  simp only [Returns, call, prev]
  cases h with
  | forward hvalid hdirection hiter he _ =>
    simp only [hdirection, hiter, get_ofList_some, he, Option.bind_some]
    have hi := (List.getElem?_eq_some_iff.mp he).1
    have hleave := fun {fuel iter} ↦ @leaveKey_eq _ _ _ entries hsorted e.userKey _ fuel iter
      (below_le_index hsorted he) hi.le
    constructor
    · rintro ⟨fuel, it', hcall⟩
      obtain ⟨iter, hiter', hcall⟩ := Option.bind_eq_some_iff.mp hcall
      obtain rfl := hleave hiter'
      split at hcall
      · rename_i hnone
        cases hn : below entries e.userKey with
        | zero => exact ⟨0, le_rfl, fun j _ _ hj ↦ by omega, .inl rfl⟩
        | succ n =>
          rw [hn, prev_ofList_succ, get_ofList_some, getElem?_eq_getElem (by omega)] at hnone
          cases hnone
      · exact findPrevUserEntry_clear hsorted hparse hle rfl hcall
    · intro hclear
      obtain ⟨iter, hiter'⟩ := @leaveKey_returns _ _ _ entries e.userKey _ _ (Nat.lt_succ_of_lt hi)
      obtain rfl := hleave hiter'
      refine ⟨entries.length + 1, ?_⟩
      rw [hiter', Option.bind_some]
      split
      · exact ⟨_, rfl⟩
      · exact findPrevUserEntry_returns hsorted hparse hle rfl hclear (by omega)
  | reverse hvalid hdirection hiter he hbefore _ _ =>
    simp only [hdirection]
    rw [← below_eq hsorted he hbefore] at hiter
    constructor
    · rintro ⟨fuel, it', hcall⟩
      exact findPrevUserEntry_clear hsorted hparse hle hiter hcall
    · intro hclear
      exact ⟨entries.length + 1, findPrevUserEntry_returns hsorted hparse hle hiter hclear (by omega)⟩

theorem call_returns_iff (hsorted : SortedEntries entries) (hparse : AllParse entries) {c : Call K}
    (h : Agrees entries s it shown) (hallows : it.allows c = true) :
    Returns (ofList Entry.key entries) s it c ↔ CallClear entries s it c := by
  cases c with
  | seekToFirst => exact iff_of_true ⟨_, seekToFirst_returns it⟩ trivial
  | seek t => exact iff_of_true ⟨_, seek_returns hsorted it t⟩ trivial
  | seekToLast =>
    constructor
    · rintro ⟨fuel, it', hcall⟩
      exact findPrevUserEntry_clear hsorted hparse le_rfl (seekToLast_eq it.iter) hcall
    · intro hclear
      exact ⟨entries.length + 1, findPrevUserEntry_returns hsorted hparse le_rfl (seekToLast_eq it.iter)
        hclear (by omega)⟩
  | next =>
    obtain ⟨e, rfl⟩ := Option.isSome_iff_exists.mp (h.valid_eq.symm.trans hallows)
    exact iff_of_true ⟨_, next_returns h⟩ trivial
  | prev =>
    obtain ⟨e, rfl⟩ := Option.isSome_iff_exists.mp (h.valid_eq.symm.trans hallows)
    rw [prev_returns_iff hsorted hparse h, CallClear, h.current_eq]
    constructor
    · rintro hclear p ⟨⟩
      exact hclear
    · intro hclear
      exact hclear (pair e) rfl

end Calls

/-! ## Whole runs -/

theorem cursorAfter_concat (view : List (K × V)) (calls : List (Call K)) (c : Call K) :
    cursorAfter view (calls ++ [c]) = c.apply (ofList Prod.fst view) (cursorAfter view calls) := by
  rw [cursorAfter, foldl_append]
  rfl

theorem get_apply (hsorted : SortedEntries entries) {position : Option ℕ}
    (h : (ofList Prod.fst (userView entries s)).get position = shown.map pair) (c : Call K)
    (hallows : c = .next ∨ c = .prev → shown.isSome) :
    (ofList Prod.fst (userView entries s)).get
        (c.apply (ofList Prod.fst (userView entries s)) position) =
      (c.target entries s shown).map pair := by
  have hview := userView_sorted (s := s) hsorted
  have hposition : ∀ e, shown = some e → ∃ i, position = some i ∧
      (userView entries s)[i]? = some (pair e) := by
    rintro e rfl
    exact Option.bind_eq_some_iff.mp h
  cases c with
  | seekToFirst =>
    simp only [Call.apply, get_seekToFirst, Call.target]
    exact head?_map
  | seekToLast =>
    simp only [Call.apply, get_seekToLast, Call.target]
    exact getLast?_map
  | seek t =>
    simp only [Call.apply, get_seek, Call.target]
    exact find?_map
  | next =>
    obtain ⟨e, rfl⟩ := Option.isSome_iff_exists.mp (hallows (.inl rfl))
    obtain ⟨i, rfl, hi⟩ := hposition e rfl
    rw [Call.apply, get_next hview hi]
    exact find?_map
  | prev =>
    obtain ⟨e, rfl⟩ := Option.isSome_iff_exists.mp (hallows (.inr rfl))
    obtain ⟨i, rfl, hi⟩ := hposition e rfl
    rw [Call.apply, get_prev hview hi, userView, filter_map, getLast?_map]
    rfl

theorem Run.agrees (hsorted : SortedEntries entries) (hparse : AllParse entries) {calls : List (Call K)}
    (hrun : Run (ofList Entry.key entries) s calls it) :
    ∃ shown, Agrees entries s it shown ∧
      (ofList Prod.fst (userView entries s)).get (cursorAfter (userView entries s) calls) =
        shown.map pair := by
  induction hrun with
  | new iter => exact ⟨none, Agrees.invalid rfl, rfl⟩
  | @call calls it it' c fuel _ hallows hcall ih =>
    obtain ⟨shown, hagrees, hcursor⟩ := ih
    refine ⟨c.target entries s shown, call_agrees hsorted hparse hagrees hallows hcall, ?_⟩
    rw [cursorAfter_concat]
    apply get_apply hsorted hcursor
    rintro (rfl | rfl) <;> exact hagrees.valid_eq.symm.trans hallows

/-- The iterator is a cursor over the user keys whose newest entry within the snapshot is a value: after
any sequence of calls it is where the cursor is, and a call returns if and only if its backward scan, when
it makes one, gets through. -/
theorem calls_move_as_cursor (hsorted : SortedEntries entries) (hparse : AllParse entries)
    {calls : List (Call K)} {it : DBIter (Option ℕ) K V} (hrun : Run (ofList Entry.key entries) s calls it) :
    it.valid = ((ofList Prod.fst (userView entries s)).get
        (cursorAfter (userView entries s) calls)).isSome ∧
      current (ofList Entry.key entries) it =
        (ofList Prod.fst (userView entries s)).get (cursorAfter (userView entries s) calls) ∧
      ∀ c, it.allows c = true → (Returns (ofList Entry.key entries) s it c ↔ CallClear entries s it c) := by
  obtain ⟨shown, hagrees, hcursor⟩ := hrun.agrees hsorted hparse
  rw [hcursor]
  refine ⟨?_, hagrees.current_eq, fun c hallows ↦ call_returns_iff hsorted hparse hagrees hallows⟩
  rw [hagrees.valid_eq, Option.isSome_map]

/-- Three keys of which the second is deleted, after `SeekToFirst`, `Next` and `Prev`. -/
def threeKeys : List (Entry ℕ ℕ) :=
  [⟨.mk' 1 2 .kTypeValue, 10⟩, ⟨.mk' 2 4 .kTypeDeletion, 0⟩, ⟨.mk' 2 3 .kTypeValue, 20⟩,
    ⟨.mk' 3 1 .kTypeValue, 30⟩]

theorem calls_move_as_cursor_of_three :
    ∃ it, Run (ofList Entry.key threeKeys) 5 [.seekToFirst, .next, .prev] it ∧
      it.valid = ((ofList Prod.fst (userView threeKeys 5)).get
        (cursorAfter (userView threeKeys 5) [.seekToFirst, .next, .prev])).isSome ∧
      current (ofList Entry.key threeKeys) it = some (1, 10) ∧
      Returns (ofList Entry.key threeKeys) 5 it .seekToLast := by
  have hsorted : SortedEntries threeKeys := by unfold SortedEntries; decide
  have hparse : AllParse threeKeys := by unfold AllParse; decide
  have hfirst : call (ofList Entry.key threeKeys) 5 5 (new none) .seekToFirst =
      some ⟨some 0, .kForward, true, none, none⟩ := by decide
  have hnext : call (ofList Entry.key threeKeys) 5 5 ⟨some 0, .kForward, true, none, none⟩ .next =
      some ⟨some 3, .kForward, true, none, none⟩ := by decide
  have hprev : call (ofList Entry.key threeKeys) 5 5 ⟨some 3, .kForward, true, none, none⟩ .prev =
      some ⟨none, .kReverse, true, some (1, 10), none⟩ := by decide
  have hrun := Run.call (Run.call (Run.call (Run.new none) rfl hfirst) rfl hnext) rfl hprev
  obtain ⟨hvalid, hcurrent, hreturns⟩ := calls_move_as_cursor hsorted hparse hrun
  refine ⟨_, hrun, hvalid, hcurrent.trans (by decide), (hreturns .seekToLast rfl).mpr ?_⟩
  have hvisible : ∀ x ∈ threeKeys, x.sequence ≤ 5 := by decide
  exact ⟨0, Nat.zero_le _, fun j e _ _ he ↦ hvisible e (mem_of_getElem? he), .inl rfl⟩

/-- An entry past the snapshot, on which `SeekToLast` does not return. -/
def newerEntry : List (Entry ℕ ℕ) := [⟨.mk' 1 5 .kTypeValue, 10⟩]

theorem seekToLast_does_not_return : SortedEntries newerEntry ∧ AllParse newerEntry ∧
      Run (ofList Entry.key newerEntry) 3 [] (new none) ∧
      ∀ fuel, call (ofList Entry.key newerEntry) 3 fuel (new none) .seekToLast = none := by
  refine ⟨by unfold SortedEntries; decide, by unfold AllParse; decide, .new none, fun fuel ↦ ?_⟩
  have hloop : ∀ fuel, findPrevLoop (ofList Entry.key newerEntry) 3 fuel none
      ⟨some 0, .kReverse, false, none, none⟩ = none := by
    intro fuel
    induction fuel with
    | zero => rfl
    | succ fuel ih => exact ih
  exact congrArg (Option.map _) (hloop fuel)

end LevelDB.Db.DbIter
