/-
The invariant of a property table and what its three searches return.

`contents` is the table as an insertion-ordered list of keys with their row data. `TableInv` says that the words of live rows
are encodings with their fingerprints, that keys are unique, that the counts are those of the rows, and that an index holds
exactly the live rows.

`lookupEntry_spec`, `findSlot_spec`: the lookup probe and the insertion probe find the row of a key exactly when there is
one. `directProbe_eq`: where the direct index probe answers, the search gives the same row.
-/
import Maligator.KeyRows
import Maligator.Table.Storage

namespace Maligator.Table

open HashIndex Option Rows KeyRows

/-! ## The abstract list -/

/-- what a row holds besides its key: the value its key was inserted as, the flags and the payload -/
structure RowData where
  value : MalValue
  flags : BitVec 8
  owned : Bool
  payload : BitVec 64
  deriving DecidableEq, Repr

def rowData (entry : MalTableEntry) : RowData :=
  ⟨keyValue entry.key, entryPropertyFlags entry, rowOwned entry, entry.payload⟩

def entryRow (entries : ℕ → MalTableEntry) (i : ℕ) : Option MalTableEntry :=
  if rowLive (entries i) then some (entries i) else none

def rowPair (units : MalValue → List ℕ) (entry : MalTableEntry) : TableKey × RowData :=
  (wordKey units entry.key, rowData entry)

def tableRow (units : MalValue → List ℕ) (table : MalTable) (i : ℕ) : Option (TableKey × RowData) :=
  (entryRow table.entries i).map (rowPair units)

def contents (units : MalValue → List ℕ) (table : MalTable) : List (TableKey × RowData) :=
  entries (tableRow units table) table.entryCount

def keyRow (entries : ℕ → MalTableEntry) (i : ℕ) : Option MalValue :=
  (entryRow entries i).map fun entry => keyValue entry.key

variable {i : ℕ} {units : MalValue → List ℕ}

variable {rows : ℕ → MalTableEntry} {q : BitVec 64} {rows' : ℕ → MalTableEntry}

theorem entryRow_eq_some {entry : MalTableEntry} :
    entryRow rows i = some entry ↔ rowLive (rows i) = true ∧ rows i = entry := by
  unfold entryRow
  split_ifs with h <;> simp [h]

theorem entryRow_isSome (rows : ℕ → MalTableEntry) (i : ℕ) : (entryRow rows i).isSome = rowLive (rows i) := by
  unfold entryRow
  split_ifs with h <;> simp [h]

theorem entryRow_congr (h : rows' i = rows i) : entryRow rows' i = entryRow rows i := by
  rw [entryRow, entryRow, h]

theorem keyRow_congr (h : rows' i = rows i) : keyRow rows' i = keyRow rows i := by
  rw [keyRow, keyRow, entryRow_congr h]

theorem livePositions_map {R S : Type} (f : R → S) (row : ℕ → Option R) (n : ℕ) :
    livePositions (fun i => (row i).map f) n = livePositions row n := by
  ext i
  rw [mem_livePositions, mem_livePositions, isSome_map]

theorem livePositions_keyRow (rows : ℕ → MalTableEntry) (n : ℕ) :
    livePositions (keyRow rows) n = livePositions (entryRow rows) n := livePositions_map _ _ n

theorem contents_eq_map (units : MalValue → List ℕ) (table : MalTable) :
    contents units table = (entries (entryRow table.entries) table.entryCount).map (rowPair units) := entries_map _ _ _

theorem length_contents (units : MalValue → List ℕ) (table : MalTable) :
    (contents units table).length = (livePositions (entryRow table.entries) table.entryCount).card := by
  rw [contents_eq_map, List.length_map, length_entries]

/-! ## The invariant -/

/-- the word of a live row: an encoding, with the fingerprint of its hash, which a string has cached -/
structure WordOk (env : TableEnv) (memory : StringMemory) (w : BitVec 64) : Prop where
  encoded : Encoded (w &&& identityMask)
  cached : Cached memory w
  fingerprint : w &&& hashMask = hashFingerprint (keyHashValue (wordEnv env.contentHash memory.units) (keyValue w))

/-- the rows are well formed, whatever the index holds -/
structure TableRowInv (env : TableEnv) (memory : StringMemory) (table : MalTable) : Prop where
  memoryOk : MemoryOk env.contentHash memory
  words : ∀ i < table.entryCount, ∀ entry, entryRow table.entries i = some entry → WordOk env memory entry.key
  nodup : ((contents memory.units table).map Prod.fst).Nodup
  size : table.size = (livePositions (entryRow table.entries) table.entryCount).card
  counts : table.size + table.tombstoneCount = table.entryCount
  countLe : table.entryCount ≤ table.entryCapacity
  capLt : table.entryCapacity < 2 ^ 31

def IndexHolds (env : TableEnv) (memory : StringMemory) (table : MalTable) (k : ℕ) : Prop :=
  k ≤ 26 ∧ Holds k (rowHash (wordEnv env.contentHash memory.units) (keyRow table.entries)) table.index table.deletedSlots
    (livePositions (keyRow table.entries) table.entryCount)

/-- **Table invariant.** -/
structure TableInv (env : TableEnv) (memory : StringMemory) (table : MalTable) : Prop
    extends TableRowInv env memory table where
  linear : table.index.capacity = 0 → table.entryCount ≤ tableSmallMinCapacity
  hashed : table.index.capacity ≠ 0 → ∃ k, IndexHolds env memory table k

variable {env : TableEnv} {memory memory' : StringMemory} {table : MalTable}

theorem WordOk.mono {w : BitVec 64} (h : WordOk env memory w) (hc : Caches env.contentHash memory memory') :
    WordOk env memory' w := ⟨h.encoded, h.cached.mono hc, by rw [hc.units]; exact h.fingerprint⟩

theorem TableRowInv.mono (h : TableRowInv env memory table) (hc : Caches env.contentHash memory memory') :
    TableRowInv env memory' table where
  memoryOk := hc.ok h.memoryOk
  words i hi entry he := (h.words i hi entry he).mono hc
  nodup := by rw [hc.units]; exact h.nodup
  size := h.size
  counts := h.counts
  countLe := h.countLe
  capLt := h.capLt

theorem TableInv.mono (h : TableInv env memory table) (hc : Caches env.contentHash memory memory') :
    TableInv env memory' table where
  toTableRowInv := h.toTableRowInv.mono hc
  linear := h.linear
  hashed hcap := by
    obtain ⟨k, hk⟩ := h.hashed hcap
    refine ⟨k, ?_⟩
    rw [IndexHolds, hc.units]
    exact hk

theorem TableInv.size_le (h : TableInv env memory table) : table.size ≤ memberLimit := by
  have hsize := h.size
  have hcounts := h.counts
  by_cases hcap : table.index.capacity = 0
  · have := h.linear hcap
    rw [tableSmallMinCapacity] at this
    rw [memberLimit]
    omega
  obtain ⟨k, hk, hH⟩ := h.hashed hcap
  have hfits := hH.fits
  have hpow : 2 ^ k ≤ 2 ^ 26 := Nat.pow_le_pow_right (by decide) hk
  rw [livePositions_keyRow, hashIndexFits, decide_eq_true_eq] at hfits
  rw [memberLimit]
  omega

/-! ## Rows of a key -/

def RowAt (units : MalValue → List ℕ) (table : MalTable) (q : BitVec 64) (i : ℕ) : Prop :=
  i < table.entryCount ∧ ∃ entry, entryRow table.entries i = some entry ∧ wordKey units entry.key = wordKey units q

def Missing (units : MalValue → List ℕ) (table : MalTable) (q : BitVec 64) : Prop :=
  ∀ i < table.entryCount, ∀ entry, entryRow table.entries i = some entry → wordKey units entry.key ≠ wordKey units q

theorem RowAt.tableRow (h : RowAt units table q i) :
    tableRow units table i = some (wordKey units q, rowData (table.entries i)) := by
  obtain ⟨_, entry, he, hk⟩ := h
  obtain ⟨_, rfl⟩ := entryRow_eq_some.1 he
  rw [Table.tableRow, he, map_some, rowPair, hk]

theorem RowAt.contains (h : RowAt units table q i) :
    contains (contents units table) (wordKey units q) = true := contains_entries.2 ⟨i, h.1, _, h.tableRow⟩

theorem Missing.contains (h : Missing units table q) : contains (contents units table) (wordKey units q) = false := by
  rw [← Bool.not_eq_true, contents, contains_entries]
  rintro ⟨i, hi, d, hr⟩
  obtain ⟨entry, he, hp⟩ := map_eq_some_iff.1 hr
  exact h i hi entry he (congrArg Prod.fst hp)

theorem TableRowInv.row_unique (h : TableRowInv env memory table) {j : ℕ}
    (hi : RowAt memory.units table q i) (hj : RowAt memory.units table q j) : i = j :=
  position_unique h.nodup hi.1 hj.1 hi.tableRow hj.tableRow

section Words

variable (hI : TableRowInv env memory table) (hq : Encoded q)

include hI hq

theorem den_entry_iff (hi : i < table.entryCount) {entry : MalTableEntry} (he : entryRow table.entries i = some entry) :
    (wordEnv env.contentHash memory.units).den (keyValue entry.key) =
        (wordEnv env.contentHash memory.units).den (keyValue q) ↔
      wordKey memory.units entry.key = wordKey memory.units q := by
  rw [← keyValue_identity, ← wordKey_identity]
  exact den_keyValue_iff (hI.words i hi entry he).encoded hq

theorem rowOf_iff : RowOf (wordEnv env.contentHash memory.units) (keyRow table.entries) table.entryCount
    (keyValue q) i ↔ RowAt memory.units table q i := by
  constructor
  · rintro ⟨hi, v, hv, hd⟩
    obtain ⟨entry, he, rfl⟩ := map_eq_some_iff.1 hv
    exact ⟨hi, entry, he, (den_entry_iff hI hq hi he).1 hd⟩
  · rintro ⟨hi, entry, he, hk⟩
    exact ⟨hi, keyValue entry.key, by rw [keyRow, he]; rfl, (den_entry_iff hI hq hi he).2 hk⟩

theorem absent_iff : Absent (wordEnv env.contentHash memory.units) (keyRow table.entries) table.entryCount
    (keyValue q) ↔ Missing memory.units table q := by
  constructor
  · intro h i hi entry he hk
    exact h i hi _ (by rw [keyRow, he]; rfl) ((den_entry_iff hI hq hi he).2 hk)
  · intro h i hi v hv hd
    obtain ⟨entry, he, rfl⟩ := map_eq_some_iff.1 hv
    exact h i hi entry he ((den_entry_iff hI hq hi he).1 hd)

/-! ## Searches -/

theorem linearFind_spec : match linearFind memory table q with
    | none => Missing memory.units table q
    | some i => RowAt memory.units table q i := by
  have hit : ∀ i < table.entryCount, ∀ entry, entryRow table.entries i = some entry →
      (keyEquals memory entry q false = true ↔ wordKey memory.units entry.key = wordKey memory.units q) :=
    fun i hi entry he => keyEquals_iff (hI.words i hi entry he).encoded hq hI.memoryOk nofun
  cases hfind : linearFind memory table q with
  | none =>
    intro i hi entry he hk
    obtain ⟨hl, rfl⟩ := entryRow_eq_some.1 he
    have hno := List.find?_eq_none.1 hfind i (List.mem_range.2 hi)
    exact hno (by rw [hl, (hit i hi _ he).2 hk]; rfl)
  | some i =>
    have hi := List.mem_range.1 (List.mem_of_find?_eq_some hfind)
    have hh := List.find?_some hfind
    rw [Bool.and_eq_true] at hh
    have he := entryRow_eq_some.2 ⟨hh.1, rfl⟩
    exact ⟨hi, _, he, (hit i hi _ he).1 hh.2⟩

/-- **Probe test.** Fingerprint, cached hash and content together decide key equality. -/
theorem probeHit_iff (hcached : Cached memory q) {hash : BitVec 64}
    (hhash : hash = keyHashValue (wordEnv env.contentHash memory.units) (keyValue q)) :
    ∀ i < table.entryCount, ∀ v, keyRow table.entries i = some v → (probeHit memory table q hash i = true ↔
        (wordEnv env.contentHash memory.units).den v = (wordEnv env.contentHash memory.units).den (keyValue q)) := by
  intro i hi v hv
  obtain ⟨entry, he, rfl⟩ := map_eq_some_iff.1 hv
  obtain ⟨_, hentry⟩ := entryRow_eq_some.1 he
  have hw := hI.words i hi entry he
  have hiff : keyEquals memory entry q true = true ↔ _ :=
    keyEquals_iff hw.encoded hq hI.memoryOk fun _ => ⟨hw.cached, hcached⟩
  rw [den_entry_iff hI hq hi he, ← hiff, probeHit, hentry, Bool.and_eq_true, and_iff_right_of_imp]
  intro heq
  rw [hw.fingerprint, hhash, keyHashValue_eq _ ((den_entry_iff hI hq hi he).2 (hiff.1 heq)), beq_self_eq_true]

end Words

def Hashed (env : TableEnv) (memory : StringMemory) (table : MalTable) (q hash : BitVec 64) : Prop :=
  table.index.capacity ≠ 0 →
    Cached memory q ∧ hash = keyHashValue (wordEnv env.contentHash memory.units) (keyValue q)

theorem searchHash_spec (hm : MemoryOk env.contentHash memory) (hq : Encoded q) (table : MalTable) :
    Caches env.contentHash memory (searchHash env memory table q).1 ∧
      Hashed env (searchHash env memory table q).1 table q (searchHash env memory table q).2 := by
  unfold searchHash
  split_ifs with hcap
  · exact ⟨Caches.refl _ _, fun h => absurd hcap h⟩
  obtain ⟨hc, hcached, hh⟩ := keyHash_spec hm hq
  refine ⟨hc, fun _ => ⟨hcached, ?_⟩⟩
  rw [hc.units]
  exact hh

section Search

variable (hI : TableInv env memory table) {hash : BitVec 64} (hq : Encoded q) (hh : Hashed env memory table q hash)

include hI hq hh

theorem lookupEntry_spec : ∃ found, lookupEntry memory table q hash = some found ∧ match found with
    | none => Missing memory.units table q
    | some i => RowAt memory.units table q i := by
  unfold lookupEntry
  split_ifs with hcap
  · exact ⟨_, rfl, linearFind_spec hI.toTableRowInv hq⟩
  obtain ⟨k, -, hH⟩ := hI.hashed hcap
  obtain ⟨hcached, hhash⟩ := hh hcap
  obtain ⟨found, hs, hans⟩ := lookup_answers hH _ (probeHit_iff hI.toTableRowInv hq hcached hhash)
  rw [← hhash] at hs
  rw [hs]
  refine ⟨_, rfl, ?_⟩
  cases found with
  | none => exact (absent_iff hI.toTableRowInv hq).1 hans
  | some b => exact (rowOf_iff hI.toTableRowInv hq).1 hans.2.2

structure HitSlot (units : MalValue → List ℕ) (table : MalTable) (q : BitVec 64) (slot i : ℕ) : Prop where
  entry : slotEntry table slot = some i
  row : RowAt units table q i
  bucket : table.index.capacity ≠ 0 →
    slot < table.index.capacity ∧ table.index.controls slot < hashEmpty ∧ table.index.slots slot = i

structure MissSlot (units : MalValue → List ℕ) (table : MalTable) (q hash : BitVec 64) (slot : ℕ) : Prop where
  entry : slotEntry table slot = none
  missing : Missing units table q
  vacant : ∀ k, table.index.capacity = 16 * 2 ^ k → Holds.Vacant k table.index hash slot

theorem findSlot_spec : ∃ slot, findSlot memory table q hash = some slot ∧
    ((∃ i, HitSlot memory.units table q slot i) ∨ MissSlot memory.units table q hash slot) := by
  unfold findSlot
  split_ifs with hcap
  · refine ⟨_, rfl, ?_⟩
    have hspec := linearFind_spec hI.toTableRowInv hq
    cases hf : linearFind memory table q with
    | some i =>
      rw [hf] at hspec
      exact .inl ⟨i, by rw [slotEntry, if_pos hcap, getD_some, if_pos hspec.1], hspec, fun h => absurd hcap h⟩
    | none =>
      rw [hf] at hspec
      refine .inr ⟨by rw [slotEntry, if_pos hcap, getD_none, if_neg (lt_irrefl _)], hspec, fun k hk => ?_⟩
      have := Nat.two_pow_pos k
      omega
  obtain ⟨k, -, hH⟩ := hI.hashed hcap
  obtain ⟨hcached, hhash⟩ := hh hcap
  have hhit := probeHit_iff hI.toTableRowInv hq hcached hhash
  obtain ⟨b, hb, hs, hout⟩ := hH.find _ (rowHash_of_hit _ hhit)
  rw [← hhash] at hs hout
  rw [hs]
  refine ⟨b, rfl, ?_⟩
  rcases hout with ⟨hlive, hmem, hit⟩ | ⟨hvac, hmiss⟩
  · refine .inl ⟨table.index.slots b, ?_, ?_, fun _ => ⟨hH.cap ▸ hb, hlive, rfl⟩⟩
    · rw [slotEntry, if_neg hcap, hashSlotLive, decide_eq_true hlive]
      rfl
    · exact (rowOf_iff hI.toTableRowInv hq).1 (rowOf_of_hit _ hhit hmem hit)
  refine .inr ⟨?_, (absent_iff hI.toTableRowInv hq).1 (absent_of_no_hit _ hhit hmiss), fun k' hk' => ?_⟩
  · rw [slotEntry, if_neg hcap, hashSlotLive, decide_eq_false hvac.not_live]
    rfl
  · rw [hH.cap] at hk'
    rwa [← Nat.pow_right_injective (le_refl 2) (Nat.eq_of_mul_eq_mul_left (by decide) hk')]

end Search

theorem directProbe_spec (units : MalValue → List ℕ) (h : directProbe table q = some i) : RowAt units table q i := by
  unfold directProbe at h
  dsimp only at h
  split_ifs at h with hc
  obtain ⟨hi, hl, hk⟩ := hc
  cases h
  exact ⟨hi, _, entryRow_eq_some.2 ⟨hl, rfl⟩, by rw [← wordKey_identity, hk]⟩

theorem directProbe_eq (hI : TableInv env memory table) {hash : BitVec 64} (hq : Encoded q)
    (hh : Hashed env memory table q hash) (h : directProbe table q = some i) :
    lookupEntry memory table q hash = some (some i) := by
  have hrow := directProbe_spec memory.units h
  obtain ⟨found, hf, hspec⟩ := lookupEntry_spec hI hq hh
  rw [hf]
  cases found with
  | none =>
    obtain ⟨hi, entry, he, hk⟩ := hrow
    exact absurd hk (hspec i hi entry he)
  | some j => rw [hI.row_unique hspec hrow]

def Answers (units : MalValue → List ℕ) (table : MalTable) (k : TableKey) (found : Option ℕ) : Prop :=
  match found with
  | none => contains (contents units table) k = false
  | some i => i < table.entryCount ∧ tableRow units table i = some (k, rowData (table.entries i))

theorem contents_of_size_zero (hI : TableRowInv env memory table) (h0 : table.size = 0) :
    contents memory.units table = [] := by
  have := length_contents memory.units table
  rw [← hI.size, h0] at this
  exact List.length_eq_zero_iff.1 this

/-- **Lookup.** It ends for every property key and answers for what the key denotes. -/
theorem tableLookup_spec (hI : TableInv env memory table) {key : MalKey} {k : TableKey}
    (hk : key.den memory.units = some k) : ∃ memory' found, tableLookup env memory table key = some (memory', found) ∧
      Caches env.contentHash memory memory' ∧ Answers memory.units table k found := by
  obtain ⟨hden, henc⟩ := encodeKey_spec memory.units key
  rw [hk] at hden
  obtain ⟨q, hq, rfl⟩ := map_eq_some_iff.1 hden
  have he := henc q hq
  have hrow : ∀ {i}, RowAt memory.units table q i → Answers memory.units table (wordKey memory.units q) (some i) :=
    fun h => ⟨h.1, h.tableRow⟩
  rw [tableLookup, hq]
  dsimp only [bind_eq_bind, bind_some]
  by_cases h0 : table.size = 0
  · rw [if_pos h0]
    refine ⟨memory, none, rfl, Caches.refl _ _, ?_⟩
    rw [Answers, contents_of_size_zero hI.toTableRowInv h0]
    rfl
  rw [if_neg h0]
  cases hd : if key.kind = .index then directProbe table q else none with
  | some i =>
    split_ifs at hd with hkind
    exact ⟨memory, some i, rfl, Caches.refl _ _, hrow (directProbe_spec memory.units hd)⟩
  | none =>
    obtain ⟨hc, hh⟩ := searchHash_spec hI.memoryOk he table
    obtain ⟨found, hf, hspec⟩ := lookupEntry_spec (hI.mono hc) he hh
    rw [hf]
    refine ⟨_, found, rfl, hc, ?_⟩
    rw [hc.units] at hspec
    cases found with
    | none => exact hspec.contains
    | some i => exact hrow hspec

end Maligator.Table
