/-
Growth and insertion in a property table.

`SameRows` says that two tables have the same rows at the same positions: the buffers and the index may differ. Every growth
step keeps the rows; what it does to the index is one lemma each.

`fillSlots_spec`: a rebuilt index holds the live rows. `tableReserve_spec`: reserving changes no row.
`tableUpsertEntry_spec`: an insertion returns the row of the key, or appends one; it aborts only in a table of at least
7 * 2^27 rows.
-/
import Maligator.Table.Invariant

namespace Maligator.Table

open HashIndex Option Rows KeyRows

variable {env : TableEnv} {memory : StringMemory} {table table' : MalTable}

/-! ## Tables with the same rows -/

structure SameRows (table table' : MalTable) : Prop where
  count : table'.entryCount = table.entryCount
  rows : ∀ i < table.entryCount, table'.entries i = table.entries i
  size : table'.size = table.size
  tombs : table'.tombstoneCount = table.tombstoneCount
  epoch : table'.handleEpoch = table.handleEpoch

theorem SameRows.refl (table : MalTable) : SameRows table table := ⟨rfl, fun _ _ => rfl, rfl, rfl, rfl⟩

variable {table'' before : MalTable} {q hash : BitVec 64} {k : ℕ}

section

variable (h : SameRows table table')
include h

theorem SameRows.trans (h' : SameRows table' table'') : SameRows table table'' where
  count := h'.count.trans h.count
  rows i hi := (h'.rows i (h.count ▸ hi)).trans (h.rows i hi)
  size := h'.size.trans h.size
  tombs := h'.tombs.trans h.tombs
  epoch := h'.epoch.trans h.epoch

theorem SameRows.tableRow (units : MalValue → List ℕ) :
    ∀ i < table.entryCount, tableRow units table' i = tableRow units table i := fun i hi => by
  rw [Table.tableRow, Table.tableRow, entryRow_congr (h.rows i hi)]

theorem SameRows.contents (units : MalValue → List ℕ) : contents units table' = contents units table := by
  rw [Table.contents, Table.contents, h.count]
  exact entries_congr (h.tableRow units)

theorem SameRows.keyRow :
    ∀ i < table.entryCount, keyRow table'.entries i = keyRow table.entries i := fun i hi => keyRow_congr (h.rows i hi)

theorem SameRows.rowInv (hI : TableRowInv env memory table)
    (hle : table'.entryCount ≤ table'.entryCapacity) (hlt : table'.entryCapacity < 2 ^ 31) :
    TableRowInv env memory table' where
  memoryOk := hI.memoryOk
  words i hi entry he := by
    rw [h.count] at hi
    rw [entryRow_congr (h.rows i hi)] at he
    exact hI.words i hi entry he
  nodup := by rw [h.contents]; exact hI.nodup
  size := by
    rw [h.size, hI.size, h.count, livePositions_congr fun i hi => entryRow_congr (h.rows i hi)]
  counts := by rw [h.size, h.tombs, h.count]; exact hI.counts
  countLe := hle
  capLt := hlt

theorem SameRows.missing {units : MalValue → List ℕ} (hm : Missing units table q) : Missing units table' q := by
  intro i hi entry he
  rw [h.count] at hi
  rw [entryRow_congr (h.rows i hi)] at he
  exact hm i hi entry he

theorem SameRows.indexHolds (hk : IndexHolds env memory table k)
    (hindex : table'.index = table.index) (hdel : table'.deletedSlots = table.deletedSlots) :
    IndexHolds env memory table' k := by
  refine ⟨hk.1, ?_⟩
  rw [hindex, hdel, h.count]
  exact holds_congr hk.2 h.keyRow

theorem SameRows.inv (hI : TableInv env memory table)
    (hle : table'.entryCount ≤ table'.entryCapacity) (hlt : table'.entryCapacity < 2 ^ 31)
    (hindex : table'.index = table.index) (hdel : table'.deletedSlots = table.deletedSlots) :
    TableInv env memory table' where
  toTableRowInv := h.rowInv hI.toTableRowInv hle hlt
  linear hcap := by rw [h.count]; exact hI.linear (hindex ▸ hcap)
  hashed hcap := by
    obtain ⟨k, hk⟩ := hI.hashed (hindex ▸ hcap)
    exact ⟨k, h.indexHolds hk hindex hdel⟩

/-! ## Buffers -/

end

theorem reallocEntries_rows (env : TableEnv) (table : MalTable) (capacity : ℕ) :
    SameRows table (reallocEntries env table capacity) :=
  ⟨rfl, fun _ hi => if_pos hi, rfl, rfl, rfl⟩

section

variable (hI : TableInv env memory table)
include hI

theorem allocateStorage_spec :
    SameRows table (allocateStorage env table) ∧ TableInv env memory (allocateStorage env table) ∧
      0 < (allocateStorage env table).entryCapacity := by
  unfold allocateStorage
  split_ifs with hcap
  · exact ⟨SameRows.refl table, hI, Nat.pos_of_ne_zero hcap⟩
  -- an empty buffer has no rows
  have h0 : table.entryCount = 0 := by
    have := hI.countLe
    omega
  have hsame : SameRows table { table with entries := env.freshEntries, entryCapacity := tableSmallMinCapacity } :=
    ⟨rfl, fun _ hi => by omega, rfl, rfl, rfl⟩
  refine ⟨hsame, hsame.inv hI (by rw [h0]; exact Nat.zero_le _) ?_ rfl rfl, ?_⟩
  · change tableSmallMinCapacity < 2 ^ 31
    decide
  · change 0 < tableSmallMinCapacity
    decide

/-- **Row growth.** It aborts only at 2^30 rows. -/
theorem growEntriesIfNeeded_spec (hpos : 0 < table.entryCapacity) :
    (growEntriesIfNeeded env table = none ∧ memberLimit ≤ table.entryCount) ∨
      ∃ table', growEntriesIfNeeded env table = some table' ∧ SameRows table table' ∧ TableInv env memory table' ∧
        table'.index = table.index ∧ table'.entryCount < table'.entryCapacity := by
  unfold growEntriesIfNeeded
  have hle := hI.countLe
  split_ifs with hlt hbig
  · exact .inr ⟨table, rfl, SameRows.refl table, hI, rfl, hlt⟩
  · refine .inl ⟨rfl, ?_⟩
    rw [int32Max] at hbig
    rw [memberLimit]
    omega
  rw [int32Max] at hbig
  have hsame := reallocEntries_rows env table (table.entryCapacity * 2)
  have hcount : table.entryCount < table.entryCapacity * 2 := by omega
  refine .inr ⟨_, rfl, hsame, hsame.inv hI hcount.le ?_ rfl rfl, rfl, hcount⟩
  change table.entryCapacity * 2 < 2 ^ 31
  omega

/-! ## The index -/

omit hI in
theorem fillSlots_spec (hI : TableRowInv env memory table) (slots : ℕ → ℕ) (hk : k ≤ 26)
    (hfits : hashIndexFits table.size (16 * 2 ^ k) = true) :
    ∃ table', fillSlots env memory table slots (16 * 2 ^ k) = some table' ∧ SameRows table table' ∧
      table'.entryCapacity = table.entryCapacity ∧ table'.index.capacity = 16 * 2 ^ k ∧ table'.deletedSlots = 0 ∧
      TableInv env memory table' := by
  have hne : 16 * 2 ^ k ≠ 0 := by positivity
  rw [hI.size, ← livePositions_keyRow] at hfits
  have hlive : ∀ i < table.entryCount, rowLive (table.entries i) = (keyRow table.entries i).isSome := fun i _ => by
    rw [keyRow, isSome_map, entryRow_isSome]
  have hhash : ∀ i < table.entryCount, rowLive (table.entries i) = true →
      (keyHash env.contentHash memory (table.entries i).key).2 =
        rowHash (wordEnv env.contentHash memory.units) (keyRow table.entries) i := fun i hi hl => by
    have he : entryRow table.entries i = some (table.entries i) := entryRow_eq_some.2 ⟨hl, rfl⟩
    rw [rowHash, keyRow, he, map_some, ← keyHash_identity, ← keyValue_identity]
    exact (keyHash_spec hI.memoryOk (hI.words i hi _ he).encoded).2.2
  obtain ⟨index, hfill, hH⟩ := holds_fill _ _ _ hlive hhash slots hfits
  have hsame : SameRows table { table with deletedSlots := 0, index := index } := ⟨rfl, fun _ _ => rfl, rfl, rfl, rfl⟩
  refine ⟨_, by rw [fillSlots, if_neg hne, hfill]; rfl, hsame, rfl, hH.cap, rfl,
    { toTableRowInv := hsame.rowInv hI hI.countLe hI.capLt, linear := fun h => ?_, hashed := fun _ => ⟨k, hk, hH⟩ }⟩
  exact absurd (hH.cap.symm.trans h) hne

omit hI in
theorem fillSlots_zero (hI : TableRowInv env memory table) (slots : ℕ → ℕ)
    (hcount : table.entryCount ≤ tableSmallMinCapacity) :
    ∃ table', fillSlots env memory table slots 0 = some table' ∧ SameRows table table' ∧ TableInv env memory table' := by
  have hsame : SameRows table { table with deletedSlots := 0, index := { table.index with capacity := 0 } } :=
    ⟨rfl, fun _ _ => rfl, rfl, rfl, rfl⟩
  exact ⟨_, by rw [fillSlots, if_pos rfl], hsame,
    { toTableRowInv := hsame.rowInv hI hI.countLe hI.capLt, linear := fun _ => hcount, hashed := absurd rfl }⟩

def IndexRoom (table : MalTable) (reusesDeleted : Bool) : Prop :=
  (table.index.capacity = 0 → table.entryCount < tableSmallMinCapacity) ∧
    (table.index.capacity ≠ 0 →
      hashIndexFits (table.size + table.deletedSlots + 1 - reusesDeleted.toNat) table.index.capacity = true)

theorem grownSlotCapacity_spec : (grownSlotCapacity table = none ∧ memberLimit ≤ table.size) ∨
      ∃ k ≤ 26, grownSlotCapacity table = some (16 * 2 ^ k) ∧ hashIndexFits (table.size + 1) (16 * 2 ^ k) = true := by
  unfold grownSlotCapacity
  extract_lets capacity
  -- a linear table has four rows at most and starts at one group
  obtain ⟨k, hk, hcap, hsize⟩ : ∃ k ≤ 26, capacity = 16 * 2 ^ k ∧ table.size ≤ 16 * 2 ^ k - 16 * 2 ^ k / 8 := by
    by_cases h0 : table.index.capacity = 0
    · refine ⟨0, by decide, if_pos h0, ?_⟩
      have := hI.linear h0
      have := hI.counts
      rw [tableSmallMinCapacity] at *
      omega
    obtain ⟨k, hk, hH⟩ := hI.hashed h0
    refine ⟨k, hk, (if_neg h0).trans hH.cap, ?_⟩
    have hfits := hH.fits
    rw [livePositions_keyRow, ← hI.size, hashIndexFits, decide_eq_true_eq] at hfits
    omega
  rw [hcap]
  have hpos := Nat.two_pow_pos k
  split_ifs with hfits hbig
  · exact .inr ⟨k, hk, rfl, hfits⟩
  · -- a full index of 2^30 buckets has 7 * 2^27 members
    refine .inl ⟨rfl, ?_⟩
    rw [hashIndexFits, decide_eq_true_eq] at hfits
    rw [int32Max] at hbig
    rw [memberLimit]
    omega
  · rw [int32Max] at hbig
    refine .inr ⟨k + 1, doublings_le ?_, by rw [pow_succ, mul_assoc], ?_⟩
    · omega
    · rw [hashIndexFits, decide_eq_true_eq]
      omega

/-- **Index growth.** Either nothing happens and there is room, or the index was rebuilt with room and no tombstones. -/
theorem growSlotsIfNeeded_spec (reusesDeleted : Bool) :
    (growSlotsIfNeeded env memory table reusesDeleted = none ∧ memberLimit ≤ table.size) ∨
      ∃ table' grown, growSlotsIfNeeded env memory table reusesDeleted = some (table', grown) ∧ SameRows table table' ∧
        TableInv env memory table' ∧ table'.entryCapacity = table.entryCapacity ∧
        (grown = false → table' = table ∧ IndexRoom table reusesDeleted) ∧
        (grown = true → table'.index.capacity ≠ 0 ∧ table'.deletedSlots = 0 ∧
          hashIndexFits (table'.size + 1) table'.index.capacity = true) := by
  unfold growSlotsIfNeeded
  split_ifs with h1 h2
  · exact .inr ⟨table, false, rfl, SameRows.refl table, hI, rfl,
      fun _ => ⟨rfl, fun _ => h1.2, fun h => absurd h1.1 h⟩, nofun⟩
  · exact .inr ⟨table, false, rfl, SameRows.refl table, hI, rfl,
      fun _ => ⟨rfl, fun h => absurd h h2.1, fun _ => h2.2⟩, nofun⟩
  rcases grownSlotCapacity_spec hI with ⟨hcap, hlimit⟩ | ⟨k, hk, hcap, hfits⟩
  · rw [hcap]
    exact .inl ⟨rfl, hlimit⟩
  rw [hcap]
  have hfits' : hashIndexFits table.size (16 * 2 ^ k) = true := hashIndexFits_mono (by omega) hfits
  obtain ⟨table', hfill, hsame, hec, hc, hd, hI'⟩ := fillSlots_spec hI.toTableRowInv env.freshSlots hk hfits'
  dsimp only [bind_eq_bind, bind_some]
  rw [rehash, hfill]
  refine .inr ⟨table', true, rfl, hsame, hI', hec, nofun, fun _ => ⟨?_, hd, ?_⟩⟩
  · rw [hc]
    positivity
  · rw [hc, hsame.size]
    exact hfits

theorem tableReserve_spec (desiredSize : ℕ) :
    ∃ table' ok, tableReserve env memory table desiredSize = some (table', ok) ∧ SameRows table table' ∧
      TableInv env memory table' := by
  unfold tableReserve
  split_ifs with h1 h2
  · exact ⟨table, true, rfl, SameRows.refl table, hI⟩
  · exact ⟨table, false, rfl, SameRows.refl table, hI⟩
  dsimp only
  cases he : growCapacity (fun capacity => decide (table.entryCount + (desiredSize - table.size) ≤ capacity)) 32
      tableSmallMinCapacity with
  | none => exact ⟨table, false, rfl, SameRows.refl table, hI⟩
  | some targetEntries =>
    obtain ⟨hreq, hlt, -⟩ := growCapacity_some (by decide) he
    rw [decide_eq_true_eq] at hreq
    cases hs : if table.entryCount + (desiredSize - table.size) ≤ tableSmallMinCapacity then some 0
        else collectionSlotCapacity desiredSize with
    | none => exact ⟨table, false, rfl, SameRows.refl table, hI⟩
    | some targetSlots =>
      dsimp only
      obtain ⟨t1, ht1, hsame1, hI1, hindex⟩ : ∃ t1, (if targetEntries > table.entryCapacity then
          reallocEntries env table targetEntries else table) = t1 ∧ SameRows table t1 ∧ TableInv env memory t1 ∧
          t1.index = table.index := by
        have hsame := reallocEntries_rows env table targetEntries
        split_ifs with hgrow
        · exact ⟨_, rfl, hsame, hsame.inv hI (show table.entryCount ≤ targetEntries by omega) hlt rfl rfl, rfl⟩
        · exact ⟨table, rfl, SameRows.refl table, hI, rfl⟩
      rw [ht1]
      split_ifs with hgrow
      · -- only an index of whole groups is larger than none
        have hpos : ¬ table.entryCount + (desiredSize - table.size) ≤ tableSmallMinCapacity := by
          intro hle
          rw [if_pos hle] at hs
          cases hs
          omega
        rw [if_neg hpos] at hs
        obtain ⟨hfits, hlt', k, rfl⟩ := growCapacity_some (by decide) hs
        have hfits' : hashIndexFits t1.size (16 * 2 ^ k) = true := by
          rw [hsame1.size]
          exact hashIndexFits_mono (by omega) hfits
        obtain ⟨t2, hfill, hsame2, -, -, -, hI2⟩ := fillSlots_spec hI1.toTableRowInv env.freshSlots (doublings_le hlt')
          hfits'
        rw [rehash, show hashGroupWidth * 2 ^ k = 16 * 2 ^ k from rfl, hfill]
        exact ⟨t2, true, rfl, hsame1.trans hsame2, hI2⟩
      · exact ⟨t1, true, rfl, hsame1, hI1⟩

/-! ## The appended row -/

end

/-- the word of a new row: no flags, no owned data -/
structure NewWord (q hash w : BitVec 64) : Prop where
  identity : w &&& identityMask = q
  fingerprint : w &&& hashMask = hashFingerprint hash
  flags : w &&& flagsMask = 0
  owned : w &&& ownsData = 0

theorem newWord (hq : Encoded q) (hash : BitVec 64) : NewWord q hash (q ||| hashFingerprint hash) := by
  have hfp : ∀ {m : BitVec 64}, hashMask &&& m = 0#64 → hashFingerprint hash &&& m = 0#64 := fun hm => by
    rw [← fingerprint_and_hashMask, and_and_eq_zero hm]
  refine ⟨?_, ?_, ?_, ?_⟩
  · rw [BitVec.and_or_distrib_right, hq.and_identityMask, hfp (by decide), BitVec.or_zero]
  · rw [BitVec.and_or_distrib_right, hq.and_eq_zero (by decide), fingerprint_and_hashMask, BitVec.zero_or]
  · rw [BitVec.and_or_distrib_right, hq.and_eq_zero (by decide), hfp (by decide)]
    rfl
  · rw [BitVec.and_or_distrib_right, hq.and_eq_zero (by decide), hfp (by decide)]
    rfl

def freshData (value : MalValue) : RowData := ⟨value, 0, false, valueUndefined⟩

theorem Encoded.kind_ne_zero (hq : Encoded q) : q &&& kindMask ≠ 0 := by
  cases hq with
  | index n h => rw [kind_index]; decide
  | string p => rw [kind_string]; decide
  | symbol p => rw [kind_symbol]; decide

section Append

variable {w : BitVec 64} (hq : Encoded q) (hw : NewWord q hash w)

include hw

theorem NewWord.rowLive (hq : Encoded q) (payload : BitVec 64) : rowLive ⟨w, payload⟩ = true := by
  rw [Table.rowLive, bne_iff_ne, ← kind_identity, hw.identity]
  exact hq.kind_ne_zero

theorem NewWord.rowPair (units : MalValue → List ℕ) :
    rowPair units ⟨w, valueUndefined⟩ = (wordKey units q, freshData (keyValue q)) := by
  rw [Table.rowPair, rowData, entryPropertyFlags, rowOwned, hw.flags, hw.owned, ← wordKey_identity, ← keyValue_identity,
    hw.identity]
  rfl

theorem NewWord.wordOk (hq : Encoded q) (hcached : Cached memory q)
    (hhash : hash = keyHashValue (wordEnv env.contentHash memory.units) (keyValue q)) : WordOk env memory w where
  encoded := hw.identity.symm ▸ hq
  cached := by rw [← cached_identity, hw.identity]; exact hcached
  fingerprint := by rw [hw.fingerprint, hhash, ← keyValue_identity w, hw.identity]

end Append

structure Appended (table table' : MalTable) (q hash : BitVec 64) (slot : ℕ) : Prop where
  count : table'.entryCount = table.entryCount + 1
  old : ∀ i < table.entryCount, table'.entries i = table.entries i
  new : table'.entries table.entryCount = ⟨q ||| hashFingerprint hash, valueUndefined⟩
  size : table'.size = table.size + 1
  tombs : table'.tombstoneCount = table.tombstoneCount
  epoch : table'.handleEpoch = table.handleEpoch
  capacity : table'.entryCapacity = table.entryCapacity
  linear : table.index.capacity = 0 → table'.index = table.index
  hashed : table.index.capacity ≠ 0 → table'.index = hashIndexInsert table.index slot table.entryCount hash ∧
    table'.deletedSlots = table.deletedSlots - (table.index.controls slot == hashDeleted).toNat

theorem appended (table : MalTable) (q hash : BitVec 64) (slot : ℕ) :
    Appended table { insertSlot (appendRow table q hash) slot table.entryCount hash with
      size := (insertSlot (appendRow table q hash) slot table.entryCount hash).size + 1 } q hash slot := by
  have hold : ∀ i < table.entryCount, (appendRow table q hash).entries i = table.entries i := fun i hi =>
    Function.update_of_ne hi.ne _ _
  have hnew : (appendRow table q hash).entries table.entryCount = ⟨q ||| hashFingerprint hash, valueUndefined⟩ :=
    Function.update_self ..
  unfold insertSlot
  split_ifs with h
  · exact ⟨rfl, hold, hnew, rfl, rfl, rfl, rfl, fun _ => rfl, fun hne => absurd h hne⟩
  · exact ⟨rfl, hold, hnew, rfl, rfl, rfl, rfl, fun h0 => absurd h0 h, fun _ => ⟨rfl, rfl⟩⟩

section Appending

variable {slot : ℕ} (hA : Appended table table' q hash slot) (hq : Encoded q)
  (units : MalValue → List ℕ)

include hA hq

theorem Appended.entryRow_new :
    entryRow table'.entries table.entryCount = some ⟨q ||| hashFingerprint hash, valueUndefined⟩ := by
  rw [← hA.new]
  exact entryRow_eq_some.2 ⟨by rw [hA.new]; exact (newWord hq hash).rowLive hq _, rfl⟩

theorem Appended.contents :
    contents units table' = contents units table ++ [(wordKey units q, freshData (keyValue q))] := by
  rw [Table.contents, hA.count, entries_succ, Table.contents]
  congr 1
  · exact entries_congr fun i hi => by rw [tableRow, tableRow, entryRow_congr (hA.old i hi)]
  · rw [tableRow, hA.entryRow_new hq, map_some, (newWord hq hash).rowPair]
    rfl

theorem Appended.rowAt : RowAt units table' q table.entryCount :=
  ⟨by rw [hA.count]; exact Nat.lt_succ_self _, _, hA.entryRow_new hq,
    by rw [← wordKey_identity, (newWord hq hash).identity]⟩

theorem Appended.onto (hs : SameRows before table) :
    Table.contents units table' = Table.contents units before ++ [(wordKey units q, freshData (keyValue q))] ∧
      table'.entryCount = before.entryCount + 1 ∧ RowAt units table' q before.entryCount ∧
      ∀ i < before.entryCount, table'.entries i = before.entries i := by
  rw [hA.contents hq, hs.contents, ← hs.count]
  refine ⟨rfl, hA.count, hA.rowAt hq units, fun i hi => ?_⟩
  rw [hA.old i hi, hs.rows i (hs.count ▸ hi)]

theorem Appended.livePositions_entryRow : livePositions (entryRow table'.entries) table'.entryCount =
      Insert.insert table.entryCount (livePositions (entryRow table.entries) table.entryCount) := by
  rw [hA.count]
  exact livePositions_append (fun i hi => entryRow_congr (hA.old i hi)) (by rw [hA.entryRow_new hq]; rfl)

theorem Appended.rowInv (hI : TableRowInv env memory table) (hlt : table.entryCount < table.entryCapacity)
    (hcached : Cached memory q) (hhash : hash = keyHashValue (wordEnv env.contentHash memory.units) (keyValue q))
    (hmiss : Missing memory.units table q) : TableRowInv env memory table' where
  memoryOk := hI.memoryOk
  words i hi entry he := by
    rw [hA.count] at hi
    rcases Nat.lt_or_eq_of_le (Nat.lt_succ_iff.1 hi) with hlt | rfl
    · rw [entryRow_congr (hA.old i hlt)] at he
      exact hI.words i hlt entry he
    · rw [hA.entryRow_new hq, some.injEq] at he
      exact he ▸ (newWord hq hash).wordOk hq hcached hhash
  nodup := by
    rw [hA.contents hq, List.map_append, List.nodup_append]
    refine ⟨hI.nodup, List.nodup_singleton _, ?_⟩
    rintro a ha _ hb rfl
    rw [List.map_singleton, List.mem_singleton] at hb
    rw [hb, ← contains_iff, hmiss.contains] at ha
    cases ha
  size := by
    rw [hA.livePositions_entryRow hq, Finset.card_insert_of_notMem fun h => lt_irrefl _ (mem_livePositions.1 h).1, hA.size,
      hI.size]
  counts := by
    have := hI.counts
    rw [hA.size, hA.tombs, hA.count]
    omega
  countLe := by rw [hA.count, hA.capacity]; exact hlt
  capLt := by rw [hA.capacity]; exact hI.capLt

/-- **Append.** The invariant, when the slot is vacant and there is room in the index. -/
theorem Appended.inv (hI : TableInv env memory table) (hlt : table.entryCount < table.entryCapacity)
    (hcached : Cached memory q) (hhash : hash = keyHashValue (wordEnv env.contentHash memory.units) (keyValue q))
    (hmiss : MissSlot memory.units table q hash slot)
    (hroom : IndexRoom table (decide (table.index.capacity ≠ 0) && table.index.controls slot == hashDeleted)) :
    TableInv env memory table' := by
  have hrow := hA.rowInv hq hI.toTableRowInv hlt hcached hhash hmiss.missing
  refine { toTableRowInv := hrow, linear := fun hcap => ?_, hashed := fun hcap => ?_ }
  · by_cases h0 : table.index.capacity = 0
    · rw [hA.count]
      exact hroom.1 h0
    · rw [(hA.hashed h0).1] at hcap
      exact absurd hcap h0
  by_cases h0 : table.index.capacity = 0
  · rw [hA.linear h0] at hcap
    exact absurd h0 hcap
  obtain ⟨k, hk, hH⟩ := hI.hashed h0
  have hvac := hmiss.vacant k hH.cap
  have hfits := hroom.2 h0
  refine ⟨k, hk, ?_⟩
  rw [(hA.hashed h0).1, (hA.hashed h0).2, hA.count]
  subst hhash
  have hnew : keyRow table'.entries table.entryCount = some (keyValue q) := by
    rw [keyRow, hA.entryRow_new hq, map_some, ← keyValue_identity, (newWord hq _).identity]
  refine holds_append hH (fun i hi => keyRow_congr (hA.old i hi)) hnew hvac ?_
  rw [livePositions_keyRow, ← hI.size, ← hH.cap]
  -- a tombstone that is reused was counted
  by_cases hdel : table.index.controls slot = hashDeleted
  · have := hH.tomb_pos hvac.lt hdel
    rw [hdel, decide_eq_true h0] at hfits
    rw [hdel]
    simp only [beq_self_eq_true, Bool.toNat_true] at hfits ⊢
    rwa [show table.size + 1 + (table.deletedSlots - 1) = table.size + table.deletedSlots + 1 - 1 by omega]
  · rw [beq_false_of_ne hdel] at hfits ⊢
    rw [Bool.and_false] at hfits
    rw [Bool.toNat_false, Nat.sub_zero]
    rwa [show table.size + 1 + table.deletedSlots = table.size + table.deletedSlots + 1 by omega]

end Appending

/-! ## Upsert -/

theorem insertEntry_spec (hI : TableInv env memory table) (hpos : 0 < table.entryCapacity) (hq : Encoded q) {slot : ℕ}
    (hh : Hashed env memory table q hash) (hmiss : MissSlot memory.units table q hash slot) :
    (insertEntry env memory table q slot hash = none ∧ memberLimit ≤ table.entryCount) ∨
    ∃ memory' table', insertEntry env memory table q slot hash = some (memory', table') ∧
      Caches env.contentHash memory memory' ∧ TableInv env memory' table' ∧
      contents memory.units table' = contents memory.units table ++ [(wordKey memory.units q, freshData (keyValue q))] ∧
      table'.entryCount = table.entryCount + 1 ∧ RowAt memory.units table' q table.entryCount ∧
      ∀ i < table.entryCount, table'.entries i = table.entries i := by
  unfold insertEntry
  dsimp only [bind_eq_bind]
  rcases growEntriesIfNeeded_spec hI hpos with ⟨h1, hlimit⟩ | ⟨t1, h1, hs1, hI1, hindex1, hlt1⟩
  · rw [h1]
    exact .inl ⟨rfl, hlimit⟩
  rw [h1, bind_some]
  rcases growSlotsIfNeeded_spec hI1 (decide (t1.index.capacity ≠ 0) && t1.index.controls slot == hashDeleted) with
    ⟨h2, hlimit⟩ | ⟨t2, grown, h2, hs2, hI2, hcap2, hkept, hgrown⟩
  · rw [h2]
    have := hI.counts
    rw [hs1.size] at hlimit
    exact .inl ⟨rfl, by omega⟩
  rw [h2, bind_some]
  refine .inr ?_
  have hs := hs1.trans hs2
  have hlt2 : t2.entryCount < t2.entryCapacity := by rw [hs2.count, hcap2]; exact hlt1
  obtain ⟨hc, hcached, hhash⟩ := keyHash_spec hI.memoryOk hq
  rw [← hc.units] at hhash
  cases grown with
  | true =>
    -- the rebuilt index is searched again
    obtain ⟨hne, hd, hfits⟩ := hgrown rfl
    obtain ⟨slot', hfind, hout⟩ := findSlot_spec (hI2.mono hc) hq (fun _ => ⟨hcached, hhash⟩)
    rcases hout with ⟨i, hhit⟩ | hmiss'
    · obtain ⟨hi, entry, he, hk⟩ := hhit.row
      rw [hc.units] at hk
      exact absurd hk (hs.missing hmiss.missing i hi entry he)
    rw [if_pos (Or.inl rfl), hfind]
    have hA := appended t2 q (keyHash env.contentHash memory q).2 slot'
    refine ⟨_, _, rfl, hc, hA.inv hq (hI2.mono hc) hlt2 hcached hhash hmiss' ⟨fun h => absurd h hne, fun _ => ?_⟩,
      hA.onto hq memory.units hs⟩
    exact hashIndexFits_mono (by omega) hfits
  | false =>
    obtain ⟨rfl, hroom2⟩ := hkept rfl
    have hslot : slotEntry t2 slot = none := by
      have := hmiss.entry
      rw [slotEntry] at this ⊢
      rw [hindex1, hs1.count]
      exact this
    by_cases h0 : t2.index.capacity = 0
    · rw [if_pos (Or.inr h0)]
      have hA := appended t2 q (keyHash env.contentHash memory q).2 slot
      refine ⟨_, _, rfl, hc, hA.inv hq (hI2.mono hc) hlt2 hcached hhash ⟨hslot, ?_, fun k hk => ?_⟩ hroom2,
        hA.onto hq memory.units hs⟩
      · rw [hc.units]
        exact hs.missing hmiss.missing
      · have := Nat.two_pow_pos k
        omega
    · rw [if_neg (show ¬ (false = true ∨ t2.index.capacity = 0) by simp [h0])]
      obtain ⟨hcached', hhash'⟩ := hh (hindex1 ▸ h0)
      have hA := appended t2 q hash slot
      refine ⟨_, _, rfl, Caches.refl _ _, hA.inv hq hI2 hlt2 hcached' hhash'
        ⟨hslot, hs.missing hmiss.missing, fun k hk => ?_⟩ hroom2, hA.onto hq memory.units hs⟩
      rw [hindex1] at hk ⊢
      exact hmiss.vacant k hk

def specUpsert (l : List (TableKey × RowData)) (k : TableKey) (value : MalValue) : List (TableKey × RowData) :=
  if contains l k then l else l ++ [(k, freshData value)]

def storedValue (key : MalKey) : MalValue := ((encodeKey key).map keyValue).getD valueEmpty

theorem tableUpsertEntry_spec (hI : TableInv env memory table) {key : MalKey} {k : TableKey}
    (hk : key.den memory.units = some k) :
    (tableUpsertEntry env memory table key = none ∧ memberLimit ≤ table.entryCount) ∨
    ∃ memory' table' entry inserted, tableUpsertEntry env memory table key = some (memory', table', entry, inserted) ∧
      Caches env.contentHash memory memory' ∧ TableInv env memory' table' ∧
      contents memory.units table' = specUpsert (contents memory.units table) k (storedValue key) ∧
      Answers memory.units table' k (some entry) ∧ inserted = !contains (contents memory.units table) k ∧
      ∀ i < table.entryCount, i < table'.entryCount ∧ table'.entries i = table.entries i := by
  obtain ⟨hden, henc⟩ := encodeKey_spec memory.units key
  rw [hk] at hden
  obtain ⟨q, hq, rfl⟩ := map_eq_some_iff.1 hden
  have he := henc q hq
  have hstored : storedValue key = keyValue q := by rw [storedValue, hq]; rfl
  obtain ⟨hs1, hI1, hpos⟩ := allocateStorage_spec hI
  obtain ⟨hc, hh⟩ := searchHash_spec hI.memoryOk he (allocateStorage env table)
  obtain ⟨slot, hfind, hout⟩ := findSlot_spec (hI1.mono hc) he hh
  rw [tableUpsertEntry, hq]
  dsimp only [bind_eq_bind, bind_some]
  rw [hfind, bind_some, hstored, specUpsert, ← hs1.contents memory.units]
  rw [hc.units] at hout
  rcases hout with ⟨i, hhit⟩ | hmiss
  · rw [hhit.entry, hhit.row.contains]
    exact .inr ⟨_, _, i, false, rfl, hc, hI1.mono hc, rfl, ⟨hhit.row.1, hhit.row.tableRow⟩, rfl,
      fun i hi => ⟨hs1.count.symm ▸ hi, hs1.rows i hi⟩⟩
  rw [hmiss.entry, hmiss.missing.contains]
  rcases insertEntry_spec (hI1.mono hc) hpos he hh (by rw [hc.units]; exact hmiss) with
    ⟨hins, hlimit⟩ | ⟨memory', table', hins, hc', hI', hcon, hcount, hrow, hold⟩
  · rw [hins]
    exact .inl ⟨rfl, hs1.count ▸ hlimit⟩
  rw [hc.units] at hcon hrow
  rw [hins]
  refine .inr ⟨_, _, _, true, rfl, hc.trans hc', hI', hcon, ?_, rfl, fun i hi => ?_⟩
  · rw [hcount]
    exact ⟨hrow.1, hrow.tableRow⟩
  · rw [hold i (hs1.count.symm ▸ hi), hs1.rows i hi, hcount, hs1.count]
    exact ⟨Nat.lt_succ_of_lt hi, rfl⟩

end Maligator.Table
