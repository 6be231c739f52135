/-
Deletion, compaction, clearing and filtering of a property table.

`tableDelete_spec`: a deletion empties the row of the key and leaves every other row in its place.
`tableCompact_spec`: compaction keeps the rows in order and numbers them anew.
`tableClear_spec`, `retainBy_spec`: clearing leaves nothing; a filter leaves the rows it keeps, in order, by whichever of
its four ways it removes the others.
-/
import Maligator.Table.Insert

namespace Maligator.Table

open HashIndex List Function Rows KeyRows

variable {env : TableEnv} {memory : StringMemory} {table table' : MalTable}

/-! ## Rows taken out -/

theorem rowLive_killRow (entry : MalTableEntry) : rowLive (killRow entry) = false := by
  rw [rowLive, killRow]
  rw [and_and_eq_zero (by decide)]
  rfl

variable {i : ℕ} {entry : MalTableEntry} {q : BitVec 64} {keep : MalValue → Bool}

theorem entryRow_killRow {rows : ℕ → MalTableEntry} (h : rows i = killRow entry) : entryRow rows i = none := by
  rw [entryRow, h, rowLive_killRow]
  rfl

/-- the rows of the second table are those of the first that `p` keeps, in their places -/
structure Thinned (p : ℕ → Bool) (table table' : MalTable) : Prop where
  count : table'.entryCount = table.entryCount
  rows : ∀ i < table.entryCount, entryRow table'.entries i = if p i then entryRow table.entries i else none
  capacity : table'.entryCapacity = table.entryCapacity
  epoch : table'.handleEpoch = table.handleEpoch

variable {p : ℕ → Bool} (rows : ℕ → MalTableEntry) {p' : ℕ → Bool}

section

variable (h : Thinned p table table')
include h

theorem Thinned.trans {table'' : MalTable}
    (h' : Thinned p' table' table'') : Thinned (fun i => p i && p' i) table table'' where
  count := h'.count.trans h.count
  rows i hi := by
    rw [h'.rows i (h.count ▸ hi), h.rows i hi]
    cases p i <;> cases p' i <;> rfl
  capacity := h'.capacity.trans h.capacity
  epoch := h'.epoch.trans h.epoch

theorem Thinned.congr
    (hp : ∀ i < table.entryCount, rowLive (table.entries i) = true → p' i = p i) : Thinned p' table table' where
  count := h.count
  rows i hi := by
    rw [h.rows i hi]
    cases hl : rowLive (table.entries i) with
    | true => rw [hp i hi hl]
    | false =>
      have hdead : entryRow table.entries i = none := by rw [entryRow, hl]; rfl
      rw [hdead]
      split_ifs <;> rfl
  capacity := h.capacity
  epoch := h.epoch

theorem Thinned.contents {units : MalValue → List ℕ} {pred : TableKey × RowData → Bool}
    (hp : ∀ i < table.entryCount, ∀ entry, entryRow table.entries i = some entry → p i = pred (rowPair units entry)) :
    contents units table' = (contents units table).filter pred := by
  rw [Table.contents, Table.contents, h.count, ← entries_filter]
  refine entries_congr fun i hi => ?_
  rw [tableRow, tableRow, h.rows i hi]
  cases he : entryRow table.entries i with
  | none => split_ifs <;> rfl
  | some entry =>
    rw [hp i hi entry he, Option.map_some, Option.filter]
    split_ifs <;> rfl

theorem Thinned.some (hi : i < table.entryCount)
    (he : entryRow table'.entries i = some entry) : entryRow table.entries i = some entry := by
  rw [h.rows i hi] at he
  split_ifs at he
  exact he

theorem Thinned.livePositions : livePositions (entryRow table'.entries) table'.entryCount =
      (livePositions (entryRow table.entries) table.entryCount).filter fun i => p i = true := by
  ext i
  rw [Finset.mem_filter, mem_livePositions, mem_livePositions, h.count]
  constructor
  · rintro ⟨hi, hl⟩
    rw [h.rows i hi] at hl
    split_ifs at hl with hp
    · exact ⟨⟨hi, hl⟩, hp⟩
    · cases hl
  · rintro ⟨⟨hi, hl⟩, hp⟩
    rw [h.rows i hi, if_pos hp]
    exact ⟨hi, hl⟩

theorem Thinned.rowInv (hI : TableRowInv env memory table)
    (hsize : table'.size = (Rows.livePositions (entryRow table'.entries) table'.entryCount).card)
    (hcounts : table'.size + table'.tombstoneCount = table'.entryCount) : TableRowInv env memory table' where
  memoryOk := hI.memoryOk
  words i hi entry he := by
    rw [h.count] at hi
    exact hI.words i hi entry (h.some hi he)
  nodup := by
    refine hI.nodup.sublist (List.Sublist.map _ ?_)
    rw [Table.contents, h.count]
    -- position by position, a thinned list of rows is a sublist
    have key : ∀ n ≤ table.entryCount, List.Sublist (entries (tableRow memory.units table') n)
        (entries (tableRow memory.units table) n) := by
      intro n
      induction n with
      | zero => exact fun _ => List.Sublist.refl _
      | succ n ih =>
        intro hn
        rw [entries_succ, entries_succ]
        refine List.Sublist.append (ih (by omega)) ?_
        rw [tableRow, h.rows n hn]
        split_ifs
        · exact List.Sublist.refl _
        · exact nil_sublist _
    exact key _ le_rfl
  size := hsize
  counts := hcounts
  countLe := by rw [h.count, h.capacity]; exact hI.countLe
  capLt := by rw [h.capacity]; exact hI.capLt

/-! ## Deletion -/

end

theorem entryRow_update (i : ℕ) (entry : MalTableEntry) :
    entryRow (update rows i entry) = update (entryRow rows) i (if rowLive entry then some entry else none) := by
  funext j
  by_cases hj : j = i
  · subst hj
    rw [entryRow, update_self, update_self]
  · rw [entryRow, update_of_ne hj, update_of_ne hj, entryRow]

theorem keyRow_kill (i : ℕ) : keyRow (update rows i (killRow (rows i))) = update (keyRow rows) i none := by
  funext j
  rw [keyRow, entryRow_update, rowLive_killRow]
  by_cases hj : j = i
  · subst hj
    rw [update_self, update_self]
    rfl
  · rw [update_of_ne hj, update_of_ne hj, keyRow]

theorem deleteEntry_fields (table : MalTable) (slot entry : ℕ) :
    (deleteEntry table slot entry).entries = update table.entries entry (killRow (table.entries entry)) ∧
      (deleteEntry table slot entry).size = table.size - 1 ∧
      (deleteEntry table slot entry).tombstoneCount = table.tombstoneCount + 1 ∧
      (deleteEntry table slot entry).entryCount = table.entryCount ∧
      (deleteEntry table slot entry).entryCapacity = table.entryCapacity ∧
      (deleteEntry table slot entry).handleEpoch = table.handleEpoch := by
  rw [deleteEntry, eraseSlot]
  split_ifs <;> exact ⟨rfl, rfl, rfl, rfl, rfl, rfl⟩

theorem deleteEntry_thinned (table : MalTable) (slot entry : ℕ) :
    Thinned (fun i => decide (i ≠ entry)) table (deleteEntry table slot entry) := by
  obtain ⟨hrows, -, -, hcount, hcap, hepoch⟩ := deleteEntry_fields table slot entry
  refine ⟨hcount, fun i _ => ?_, hcap, hepoch⟩
  rw [hrows, entryRow_update, rowLive_killRow]
  by_cases hi : i = entry
  · subst hi
    rw [update_self, if_neg (by simp), if_neg (by simp)]
  · rw [update_of_ne hi, if_pos (by simpa using hi)]

theorem deleteEntry_inv (hI : TableInv env memory table) {slot : ℕ}
    (hhit : HitSlot memory.units table q slot i) : TableInv env memory (deleteEntry table slot i) := by
  have hthin := deleteEntry_thinned table slot i
  obtain ⟨hrows, hsize, htombs, hcount, -, -⟩ := deleteEntry_fields table slot i
  have hmem : i ∈ livePositions (entryRow table.entries) table.entryCount := by
    obtain ⟨hi, entry, he, _⟩ := hhit.row
    exact mem_livePositions.2 ⟨hi, by rw [he]; rfl⟩
  have hcard : (livePositions (entryRow (deleteEntry table slot i).entries) (deleteEntry table slot i).entryCount) =
      (livePositions (entryRow table.entries) table.entryCount).erase i := by
    rw [hthin.livePositions]
    ext j
    rw [Finset.mem_filter, Finset.mem_erase, decide_eq_true_eq]
    tauto
  have hpos : 0 < table.size := by
    rw [hI.size]
    exact Finset.card_pos.2 ⟨i, hmem⟩
  have hrow : TableRowInv env memory (deleteEntry table slot i) := by
    refine hthin.rowInv hI.toTableRowInv ?_ ?_
    · rw [hcard, Finset.card_erase_of_mem hmem, hsize, hI.size]
    · have := hI.counts
      omega
  have hindex : table.index.capacity = 0 → (deleteEntry table slot i).index = table.index := fun h => by
    rw [deleteEntry, eraseSlot, if_pos h]
  refine { toTableRowInv := hrow, linear := fun hcap => ?_, hashed := fun hcap => ?_ }
  · by_cases h0 : table.index.capacity = 0
    · rw [hcount]
      exact hI.linear h0
    · rw [deleteEntry, eraseSlot, if_neg h0] at hcap
      exact absurd hcap h0
  by_cases h0 : table.index.capacity = 0
  · rw [hindex h0] at hcap
    exact absurd h0 hcap
  obtain ⟨k, hk, hH⟩ := hI.hashed h0
  obtain ⟨hb, hlive, hslot⟩ := hhit.bucket h0
  refine ⟨k, hk, ?_⟩
  have herase := holds_erase hH hb hlive
  rw [hslot, ← keyRow_kill] at herase
  rw [deleteEntry, eraseSlot, if_neg h0]
  exact herase

theorem tableDelete_spec (hI : TableInv env memory table) {key : MalKey} (hq : encodeKey key = some q) :
    ∃ memory' table' found, tableDelete env memory table key = some (memory', table', found) ∧
      Caches env.contentHash memory memory' ∧ TableInv env memory' table' ∧
      ((found = true ∧ ∃ i, RowAt memory.units table q i ∧ Thinned (fun j => decide (j ≠ i)) table table') ∨
        (found = false ∧ table' = table ∧ contains (contents memory.units table) (wordKey memory.units q) = false)) := by
  have he := (encodeKey_spec memory.units key).2 q hq
  rw [tableDelete, hq]
  dsimp only [Option.bind_eq_bind, Option.bind_some]
  split_ifs with h0
  · refine ⟨memory, table, false, rfl, Caches.refl _ _, hI, .inr ⟨rfl, rfl, ?_⟩⟩
    rw [contents_of_size_zero hI.toTableRowInv h0]
    rfl
  obtain ⟨hc, hh⟩ := searchHash_spec hI.memoryOk he table
  obtain ⟨slot, hfind, hout⟩ := findSlot_spec (hI.mono hc) he hh
  rw [hfind, Option.bind_some]
  rcases hout with ⟨i, hhit⟩ | hmiss
  · rw [hhit.entry]
    have hrow := hhit.row
    rw [hc.units] at hrow
    exact ⟨_, _, true, rfl, hc, deleteEntry_inv (hI.mono hc) hhit,
      .inl ⟨rfl, i, hrow, deleteEntry_thinned table slot i⟩⟩
  · rw [hmiss.entry]
    have habs := hmiss.missing.contains
    rw [hc.units] at habs
    exact ⟨_, _, false, rfl, hc, hI.mono hc, .inr ⟨rfl, rfl, habs⟩⟩

theorem Thinned.erase (hI : TableRowInv env memory table) (hrow : RowAt memory.units table q i)
    (h : Thinned (fun j => decide (j ≠ i)) table table') :
    Table.contents memory.units table' = Rows.erase (Table.contents memory.units table) (wordKey memory.units q) := by
  refine h.contents fun j hj entry he => ?_
  rw [Bool.eq_iff_iff, decide_eq_true_eq, decide_eq_true_eq, not_iff_not]
  constructor
  · rintro rfl
    obtain ⟨_, entry', he', hk⟩ := hrow
    rw [he, Option.some.injEq] at he'
    rw [rowPair, he', hk]
  · intro hk
    exact hI.row_unique ⟨hj, entry, he, hk⟩ hrow

/-! ## Compaction -/

theorem compactRow_eq (st : (ℕ → MalTableEntry) × ℕ) (i : ℕ) :
    (entryRow (compactRow st i).1, (compactRow st i).2) = compactStep (entryRow st.1, st.2) i := by
  unfold compactRow
  by_cases hl : rowLive (st.1 i) = true
  · have hrow : entryRow st.1 i = some (st.1 i) := entryRow_eq_some.2 ⟨hl, rfl⟩
    rw [if_pos hl, compactStep_some hrow]
    by_cases hi : st.2 = i
    · rw [if_neg (by simpa using hi), hi, ← hrow, update_eq_self]
    · rw [if_pos hi, entryRow_update, if_pos hl]
  · have hrow : entryRow st.1 i = none := by rw [entryRow, if_neg hl]
    rw [if_neg hl, compactStep_none hrow]

theorem foldl_compactRow (l : List ℕ) (st : (ℕ → MalTableEntry) × ℕ) :
    l.foldl compactStep (entryRow st.1, st.2) = (entryRow (l.foldl compactRow st).1, (l.foldl compactRow st).2) :=
  foldl_hom (fun st : (ℕ → MalTableEntry) × ℕ => (entryRow st.1, st.2)) fun st i => (compactRow_eq st i).symm

theorem compacting_rows (n : ℕ) : Compacting (entryRow rows) n (entryRow ((List.range n).foldl compactRow (rows, 0)).1,
      ((List.range n).foldl compactRow (rows, 0)).2) := by
  rw [← foldl_compactRow (List.range n) (rows, 0)]
  exact compacting_fold (entryRow rows) n

/-- **Packing.** The rows stay in order and none is dead. -/
theorem packRows_spec (hI : TableRowInv env memory table) : TableRowInv env memory (packRows table) ∧
      (∀ units, contents units (packRows table) = contents units table) ∧ (packRows table).entryCount = table.size := by
  obtain ⟨hcount, hentries, -⟩ := compact_spec (compacting_rows table.entries table.entryCount)
  have hrows : entries (entryRow (packRows table).entries) (packRows table).entryCount =
      entries (entryRow table.entries) table.entryCount := hentries
  have hcon : ∀ units, contents units (packRows table) = contents units table := fun units => by
    rw [contents_eq_map, contents_eq_map, hrows]
  have hn : (packRows table).entryCount = table.size := by
    rw [hI.size, ← length_entries]
    exact hcount
  refine ⟨⟨hI.memoryOk, fun i hi entry he => ?_, ?_, ?_, ?_, ?_, hI.capLt⟩, hcon, hn⟩
  · have hmem : entry ∈ entries (entryRow table.entries) table.entryCount := hrows ▸ mem_entries.2 ⟨i, hi, he⟩
    obtain ⟨j, hj, hj'⟩ := mem_entries.1 hmem
    exact hI.words j hj entry hj'
  · rw [hcon]
    exact hI.nodup
  · rw [← length_entries, hrows, length_entries]
    exact hI.size
  · rw [hn]
    rfl
  · have := hI.counts
    have := hI.countLe
    rw [hn]
    change table.size ≤ table.entryCapacity
    omega

theorem doubleUntil_eq {enough : ℕ → Bool} {fuel c d : ℕ} (h : growCapacity enough fuel c = some d) :
    doubleUntil enough fuel c = d := by
  induction fuel generalizing c d with
  | zero => cases h
  | succ fuel ih =>
    rw [growCapacity] at h
    rw [doubleUntil]
    split_ifs at h ⊢ with h1 h2
    · cases h
      rfl
    · exact ih h

theorem shrinkEntries_spec (hI : TableRowInv env memory table) (hcount : table.entryCount = table.size)
    (hsize : table.size ≤ memberLimit) :
    SameRows table (shrinkEntries env table) ∧ TableRowInv env memory (shrinkEntries env table) := by
  rw [memberLimit] at hsize
  obtain ⟨j, hj, he, hlt⟩ := growCapacity_spec (fun capacity => decide (table.size ≤ capacity))
    (fun c hc => by rw [decide_eq_true_eq]; omega) 32 tableSmallMinCapacity (by decide) (by decide) (by decide)
  have htarget := doubleUntil_eq hj
  unfold shrinkEntries
  dsimp only
  rw [htarget]
  rw [decide_eq_true_eq] at he
  split_ifs
  · have hsame := reallocEntries_rows env table (tableSmallMinCapacity * 2 ^ j)
    exact ⟨hsame, hsame.rowInv hI (show table.entryCount ≤ tableSmallMinCapacity * 2 ^ j by omega) hlt⟩
  · exact ⟨SameRows.refl table, hI⟩

theorem nextEpoch_ne (epoch : BitVec 64) : nextEpoch epoch ≠ epoch := by
  unfold nextEpoch
  split_ifs <;> bv_omega

theorem tableCompact_spec (hI : TableInv env memory table) :
    ∃ table', tableCompact env memory table = some table' ∧ TableInv env memory table' ∧
      (∀ units, contents units table' = contents units table) ∧ (table' = table ∨ table'.handleEpoch ≠ table.handleEpoch) := by
  unfold tableCompact
  split_ifs with h1
  · exact ⟨table, rfl, hI, fun _ => rfl, .inl rfl⟩
  obtain ⟨hI1, hcon1, hn⟩ := packRows_spec hI.toTableRowInv
  have hepoch : (packRows table).handleEpoch ≠ table.handleEpoch := nextEpoch_ne _
  have hsz : (packRows table).size = table.size := rfl
  dsimp only
  by_cases h0 : (packRows table).size = 0
  · rw [if_pos h0]
    have hempty : (packRows table).entryCount = 0 := by rw [hn, ← hsz, h0]
    refine ⟨_, rfl, ?_, hcon1, .inr hepoch⟩
    exact
      { memoryOk := hI1.memoryOk, words := hI1.words, nodup := hI1.nodup, size := hI1.size, counts := hI1.counts
        countLe := hempty.le, capLt := show 0 < 2 ^ 31 by decide
        linear := fun _ => show (packRows table).entryCount ≤ _ by rw [hempty]; exact Nat.zero_le _
        hashed := absurd rfl }
  obtain ⟨hs2, hI2⟩ := shrinkEntries_spec hI1 (by rw [hn, hsz]) (by rw [hsz]; exact hI.size_le)
  have hcon2 : ∀ units, contents units (shrinkEntries env (packRows table)) = contents units table := fun units => by
    rw [hs2.contents, hcon1]
  have hcount2 : (shrinkEntries env (packRows table)).entryCount = table.size := by rw [hs2.count, hn]
  have hsize2 : (shrinkEntries env (packRows table)).size = table.size := by rw [hs2.size, hsz]
  have hepoch2 := hs2.epoch.trans_ne hepoch
  split_ifs with hsmall
  · obtain ⟨t3, h3, hs3, hI3⟩ := fillSlots_zero hI2 env.freshSlots (by rw [hcount2, ← hsize2]; exact hsmall)
    exact ⟨t3, h3, hI3, fun units => by rw [hs3.contents, hcon2], .inr (hs3.epoch.trans_ne hepoch2)⟩
  obtain ⟨k, hk, hslots, hfits⟩ := collectionSlotCapacity_le (hsize2 ▸ hI.size_le)
  rw [doubleUntil_eq hslots]
  obtain ⟨t3, h3, hs3, -, -, -, hI3⟩ := fillSlots_spec hI2 env.freshSlots hk hfits
  exact ⟨t3, h3, hI3, fun units => by rw [hs3.contents, hcon2], .inr (hs3.epoch.trans_ne hepoch2)⟩

/-! ## Clear and retain -/

theorem killRows_row (table : MalTable) (reject : MalTableEntry → Bool) (hi : i < table.entryCount) :
    entryRow (killRows table reject) i = if !reject (table.entries i) then entryRow table.entries i else none := by
  by_cases hl : rowLive (table.entries i) = true
  · cases hr : reject (table.entries i) with
    | true =>
      have hkill : killRows table reject i = killRow (table.entries i) := if_pos ⟨hi, hl, hr⟩
      rw [entryRow_killRow hkill]
      rfl
    | false =>
      have hkeep : killRows table reject i = table.entries i := if_neg fun h => by rw [hr] at h; cases h.2.2
      rw [entryRow_congr hkeep]
      rfl
  · have hkeep : killRows table reject i = table.entries i := if_neg fun h => hl h.2.1
    have hdead : entryRow table.entries i = none := by rw [entryRow, if_neg hl]
    rw [entryRow_congr hkeep, hdead]
    split_ifs <;> rfl

theorem length_live (table : MalTable) :
    ((List.range table.entryCount).filter fun e => rowLive (table.entries e)).length =
      (livePositions (entryRow table.entries) table.entryCount).card := by
  rw [← toFinset_card_of_nodup (nodup_range.filter _)]
  congr 1
  ext i
  rw [mem_toFinset, mem_filter, mem_range, mem_livePositions, entryRow_isSome]

theorem clearRows_spec (hI : TableInv env memory table) :
    TableInv env memory (clearRows table) ∧ contents memory.units (clearRows table) = [] := by
  have hthin : Thinned (fun _ => false) table (clearRows table) := ⟨rfl, fun i hi => killRows_row table _ hi, rfl, rfl⟩
  have hnone : livePositions (entryRow (clearRows table).entries) (clearRows table).entryCount = ∅ := by
    rw [hthin.livePositions, Finset.filter_eq_empty_iff]
    exact nofun
  have hcounts : table.tombstoneCount + ((List.range table.entryCount).filter fun e => rowLive (table.entries e)).length =
      table.entryCount := by
    rw [length_live, ← hI.size, Nat.add_comm]
    exact hI.counts
  have hindex : (clearRows table).index = if table.index.capacity = 0 then table.index
      else hashIndexReset table.index.slots table.index.capacity := rfl
  refine ⟨{ toTableRowInv := hthin.rowInv hI.toTableRowInv ?_ ?_, linear := fun hcap => ?_, hashed := fun hcap => ?_ }, ?_⟩
  · rw [hnone]
    rfl
  · exact (Nat.zero_add _).trans hcounts
  · refine hI.linear ?_
    rw [hindex] at hcap
    split_ifs at hcap with h0
    · exact h0
    · exact absurd hcap h0
  · by_cases h0 : table.index.capacity = 0
    · rw [hindex, if_pos h0] at hcap
      exact absurd h0 hcap
    obtain ⟨k, hk, hH⟩ := hI.hashed h0
    refine ⟨k, hk, ?_⟩
    rw [livePositions_keyRow, hnone, hindex, if_neg h0, hH.cap]
    exact Holds.reset k _ _
  · have hfilter : contents memory.units (clearRows table) = (contents memory.units table).filter fun _ => false :=
      hthin.contents fun _ _ _ _ => rfl
    rw [hfilter, filter_false]

theorem tableClear_spec (hI : TableInv env memory table) :
    ∃ table', tableClear env memory table = some table' ∧ TableInv env memory table' ∧
      contents memory.units table' = [] := by
  unfold tableClear
  by_cases h0 : table.size = 0
  · have hempty := contents_of_size_zero hI.toTableRowInv h0
    split_ifs
    · obtain ⟨t, ht, hI', hcon, -⟩ := tableCompact_spec hI
      exact ⟨t, ht, hI', by rw [hcon, hempty]⟩
    · exact ⟨table, rfl, hI, hempty⟩
  dsimp only
  obtain ⟨hI1, hcon1⟩ := clearRows_spec hI
  split_ifs
  · obtain ⟨t, ht, hI', hcon, -⟩ := tableCompact_spec hI1
    exact ⟨t, ht, hI', by rw [hcon, hcon1]⟩
  · exact ⟨_, rfl, hI1, hcon1⟩

theorem encode_stored (hI : TableRowInv env memory table) (hi : i < table.entryCount)
    (he : entryRow table.entries i = some entry) : encodeKey (decodeKey entry.key) = some (entry.key &&& identityMask) ∧
      keyFromValue (keyValue entry.key) = decodeKey entry.key ∧
      RowAt memory.units table (entry.key &&& identityMask) i := by
  have hw := (hI.words i hi entry he).encoded
  refine ⟨?_, ?_, hi, entry, he, (wordKey_identity _ _).symm⟩
  · rw [← decodeKey_identity]
    exact encodeKey_decodeKey hw
  · rw [← keyValue_identity, ← decodeKey_identity]
    exact keyFromValue_keyValue hw

/-- **Deletion of a stored key.** Exactly its row goes. -/
theorem tableDelete_stored (hI : TableInv env memory table) (hi : i < table.entryCount)
    (he : entryRow table.entries i = some entry) :
    ∃ memory' table' found, tableDelete env memory table (decodeKey entry.key) = some (memory', table', found) ∧
      Caches env.contentHash memory memory' ∧ TableInv env memory' table' ∧
      Thinned (fun j => decide (j ≠ i)) table table' := by
  obtain ⟨hq, -, hrow⟩ := encode_stored hI.toTableRowInv hi he
  obtain ⟨memory', table', found, hdel, hc, hI', hout⟩ := tableDelete_spec hI hq
  refine ⟨memory', table', found, hdel, hc, hI', ?_⟩
  rcases hout with ⟨-, j, hj, hthin⟩ | ⟨-, -, habs⟩
  · rwa [hI.row_unique hrow hj]
  · rw [hrow.contains] at habs
    cases habs

theorem deleteKeys_spec (positions : List ℕ) : ∀ {memory : StringMemory} {table : MalTable}, TableInv env memory table →
    positions.Nodup → (∀ i ∈ positions, i < table.entryCount ∧ rowLive (table.entries i) = true) →
    ∃ memory' table', deleteKeys env (positions.map fun i => keyValue (table.entries i).key) memory table =
        some (memory', table') ∧ Caches env.contentHash memory memory' ∧ TableInv env memory' table' ∧
      Thinned (fun j => decide (j ∉ positions)) table table' := by
  induction positions with
  | nil =>
    intro memory table hI _ _
    exact ⟨memory, table, rfl, Caches.refl _ _, hI, rfl, fun i _ => by simp, rfl, rfl⟩
  | cons i positions ih =>
    intro memory table hI hnd hlive
    obtain ⟨hi, hnd⟩ := nodup_cons.1 hnd
    obtain ⟨hlt, hl⟩ := hlive i mem_cons_self
    have he : entryRow table.entries i = some (table.entries i) := entryRow_eq_some.2 ⟨hl, rfl⟩
    obtain ⟨m1, t1, found, hdel, hc1, hI1, hthin1⟩ := tableDelete_stored hI hlt he
    -- the other rows are where they were
    have hrows : ∀ j ∈ positions, entryRow t1.entries j = some (table.entries j) := fun j hj => by
      obtain ⟨hjlt, hjl⟩ := hlive j (mem_cons_of_mem i hj)
      have hne : j ≠ i := by
        rintro rfl
        exact hi hj
      rw [hthin1.rows j hjlt, if_pos (by simpa using hne)]
      exact entryRow_eq_some.2 ⟨hjl, rfl⟩
    have hvalues : positions.map (fun i => keyValue (table.entries i).key) =
        positions.map fun i => keyValue (t1.entries i).key :=
      map_congr_left fun j hj => by rw [(entryRow_eq_some.1 (hrows j hj)).2]
    obtain ⟨m2, t2, hrest, hc2, hI2, hthin2⟩ := ih hI1 hnd fun j hj => by
      have hj' := entryRow_eq_some.1 (hrows j hj)
      exact ⟨hthin1.count ▸ (hlive j (mem_cons_of_mem i hj)).1, hj'.1⟩
    refine ⟨m2, t2, ?_, hc1.trans hc2, hI2, ?_⟩
    · rw [map_cons, deleteKeys, (encode_stored hI.toTableRowInv hlt he).2.1, hdel]
      rw [hvalues]
      exact hrest
    · refine (hthin1.trans hthin2).congr fun j _ _ => ?_
      simp only [mem_cons, not_or, Bool.decide_and]

theorem deleteRejected_spec (keep : MalValue → Bool) (positions : List ℕ) : ∀ {memory : StringMemory} {table : MalTable},
    TableInv env memory table → positions.Nodup → (∀ i ∈ positions, i < table.entryCount) →
    ∃ memory' table', deleteRejected env keep positions memory table = some (memory', table') ∧
      Caches env.contentHash memory memory' ∧ TableInv env memory' table' ∧
      Thinned (fun j => decide (j ∉ positions) || keep (keyValue (table.entries j).key)) table table' := by
  induction positions with
  | nil =>
    intro memory table hI _ _
    exact ⟨memory, table, rfl, Caches.refl _ _, hI, rfl, fun i _ => by simp, rfl, rfl⟩
  | cons i positions ih =>
    intro memory table hI hnd hlt
    obtain ⟨hi, hnd⟩ := nodup_cons.1 hnd
    have hilt := hlt i mem_cons_self
    rw [deleteRejected]
    split_ifs with hkeep
    · obtain ⟨m2, t2, hrest, hc2, hI2, hthin2⟩ := ih hI hnd fun j hj => hlt j (mem_cons_of_mem i hj)
      refine ⟨m2, t2, hrest, hc2, hI2, hthin2.congr fun j _ hl => ?_⟩
      by_cases hji : j = i
      · -- a live row that is passed is kept
        subst hji
        rw [hl, Bool.not_true, Bool.false_or] at hkeep
        simp [hkeep]
      · simp only [mem_cons, hji, false_or]
    rw [Bool.not_eq_true, Bool.or_eq_false_iff, Bool.not_eq_false'] at hkeep
    have he : entryRow table.entries i = some (table.entries i) := entryRow_eq_some.2 ⟨hkeep.1, rfl⟩
    obtain ⟨m1, t1, found, hdel, hc1, hI1, hthin1⟩ := tableDelete_stored hI hilt he
    rw [hdel]
    obtain ⟨m2, t2, hrest, hc2, hI2, hthin2⟩ := ih hI1 hnd fun j hj => hthin1.count ▸ hlt j (mem_cons_of_mem i hj)
    refine ⟨m2, t2, hrest, hc1.trans hc2, hI2, (hthin1.trans hthin2).congr fun j hj hl => ?_⟩
    by_cases hji : j = i
    · subst hji
      simp [hkeep.2]
    -- the row was not touched, so neither was its key
    have hrow : entryRow t1.entries j = some (table.entries j) := by
      rw [hthin1.rows j hj, if_pos (by simpa using hji)]
      exact entryRow_eq_some.2 ⟨hl, rfl⟩
    rw [(entryRow_eq_some.1 hrow).2]
    simp only [mem_cons, hji, false_or, ne_eq, not_false_eq_true, decide_true, Bool.true_and]

theorem mem_rejectedRows : i ∈ rejectedRows table keep ↔
      i < table.entryCount ∧ rowLive (table.entries i) = true ∧ keep (keyValue (table.entries i).key) = false := by
  rw [rejectedRows, mem_filter, mem_range, Bool.and_eq_true, Bool.not_eq_true']

def keptRow (table : MalTable) (keep : MalValue → Bool) (i : ℕ) : Bool := keep (keyValue (table.entries i).key)

theorem card_kept (table : MalTable) (keep : MalValue → Bool) :
    ((livePositions (entryRow table.entries) table.entryCount).filter fun i => keptRow table keep i = true).card +
      (rejectedRows table keep).length = (livePositions (entryRow table.entries) table.entryCount).card := by
  have hrej : (rejectedRows table keep).length =
      ((livePositions (entryRow table.entries) table.entryCount).filter fun i => ¬ keptRow table keep i = true).card := by
    have hnd : (rejectedRows table keep).Nodup := nodup_range.filter _
    rw [← toFinset_card_of_nodup hnd]
    congr 1
    ext i
    rw [mem_toFinset, mem_rejectedRows, Finset.mem_filter, mem_livePositions, entryRow_isSome, Bool.not_eq_true, keptRow,
      and_assoc]
  rw [hrej]
  exact Finset.card_filter_add_card_filter_not _

/-- what is left of a filtered table: the rows that are kept, where they were -/
structure Retained (env : TableEnv) (memory : StringMemory) (table : MalTable) (keep : MalValue → Bool)
    (result : StringMemory × MalTable) : Prop where
  caches : Caches env.contentHash memory result.1
  inv : TableInv env result.1 result.2
  contents : Table.contents result.1.units result.2 = (Table.contents memory.units table).filter fun p => keep p.2.value
  survivors : ∀ i < table.entryCount, rowLive (table.entries i) = true → keptRow table keep i = true →
    result.2.handleEpoch = table.handleEpoch ∧ i < result.2.entryCount ∧ result.2.entries i = table.entries i

theorem Thinned.retained {t : MalTable} (h : Thinned (keptRow table keep) table t) (hs : SameRows t table')
    (hc : Caches env.contentHash memory memory') (hI : TableInv env memory' table') :
    Retained env memory table keep (memory', table') where
  caches := hc
  inv := hI
  contents := by
    rw [hc.units, hs.contents]
    refine h.contents fun i _ entry he => ?_
    obtain ⟨_, rfl⟩ := entryRow_eq_some.1 he
    rfl
  survivors i hi hl hk := by
    have hrow := h.rows i hi
    have hi' := h.count.symm ▸ hi
    rw [if_pos hk, entryRow, entryRow, if_pos hl] at hrow
    exact ⟨hs.epoch.trans h.epoch, hs.count.symm ▸ hi', (hs.rows i hi').trans (entryRow_eq_some.1 hrow).2⟩

/-- **Dense filtering.** The rejected rows are marked dead and the index is rebuilt in place. -/
theorem rejectRows_spec (hI : TableInv env memory table) (keep : MalValue → Bool) :
    ∃ table', fillSlots env memory (rejectRows table keep (rejectedRows table keep).length)
        (rejectRows table keep (rejectedRows table keep).length).index.slots
        (rejectRows table keep (rejectedRows table keep).length).index.capacity = some table' ∧
      Retained env memory table keep (memory, table') := by
  have hcard := card_kept table keep
  rw [← hI.size] at hcard
  have hcounts := hI.counts
  generalize ht : rejectRows table keep (rejectedRows table keep).length = t
  have hthin : Thinned (keptRow table keep) table t := by
    rw [← ht]
    exact ⟨rfl, fun i hi => (killRows_row table _ hi).trans (by rw [Bool.not_not, keptRow]), rfl, rfl⟩
  have hlive := hthin.livePositions
  have hcount := hthin.count
  have hindex : t.index = table.index := ht ▸ rfl
  have hsize : t.size = table.size - (rejectedRows table keep).length := ht ▸ rfl
  have htombs : t.tombstoneCount = table.tombstoneCount + (rejectedRows table keep).length := ht ▸ rfl
  have hrow : TableRowInv env memory t := by
    refine hthin.rowInv hI.toTableRowInv ?_ ?_
    · rw [hlive]
      omega
    · omega
  rw [hindex]
  by_cases h0 : table.index.capacity = 0
  · rw [h0]
    obtain ⟨t', ht, hs, hI'⟩ := fillSlots_zero hrow table.index.slots (by rw [hcount]; exact hI.linear h0)
    exact ⟨t', ht, hthin.retained hs (Caches.refl _ _) hI'⟩
  obtain ⟨k, hk, hH⟩ := hI.hashed h0
  have hfits : hashIndexFits t.size (16 * 2 ^ k) = true := by
    have hall := hH.fits
    rw [livePositions_keyRow, ← hI.size] at hall
    exact hashIndexFits_mono (by omega) hall
  rw [hH.cap]
  obtain ⟨t', ht, hs, -, -, -, hI'⟩ := fillSlots_spec hrow table.index.slots hk hfits
  exact ⟨t', ht, hthin.retained hs (Caches.refl _ _) hI'⟩

theorem all_rejected (hI : TableRowInv env memory table) (h : (rejectedRows table keep).length = table.size)
    (hi : i < table.entryCount) (hl : rowLive (table.entries i) = true) : keptRow table keep i = false := by
  have hcard := card_kept table keep
  rw [← hI.size] at hcard
  have hnone : (livePositions (entryRow table.entries) table.entryCount).filter (fun i => keptRow table keep i = true) = ∅ :=
    Finset.card_eq_zero.1 (by omega)
  rw [Finset.filter_eq_empty_iff] at hnone
  exact Bool.eq_false_iff.2 (hnone (mem_livePositions.2 ⟨hi, (entryRow_isSome _ _).trans hl⟩))

/-- the ways a filter has to take out the rows it rejects -/
inductive RetainStrategy where
  | clear
  | keys
  | scan
  | rebuild
  deriving DecidableEq, Repr

def retainBy (env : TableEnv) (memory : StringMemory) (table : MalTable) (keep : MalValue → Bool) :
    RetainStrategy → Option (StringMemory × MalTable)
  | .clear => (tableClear env memory table).map fun t => (memory, t)
  | .keys => deleteKeys env ((rejectedRows table keep).map fun e => keyValue (table.entries e).key) memory table
  | .scan => deleteRejected env keep (List.range table.entryCount) memory table
  | .rebuild =>
    let t := rejectRows table keep (rejectedRows table keep).length
    (fillSlots env memory t t.index.slots t.index.capacity).map fun t => (memory, t)

def Fits (table : MalTable) (keep : MalValue → Bool) (strategy : RetainStrategy) : Prop :=
  strategy = .clear → (rejectedRows table keep).length = table.size

/-- **Filtering.** The rows that are kept, in order, whichever way the others are removed. -/
theorem retainBy_spec (hI : TableInv env memory table) {strategy : RetainStrategy} (hfits : Fits table keep strategy) :
    ∃ result, retainBy env memory table keep strategy = some result ∧ Retained env memory table keep result := by
  cases strategy with
  | clear =>
    have hall := fun i => all_rejected (i := i) hI.toTableRowInv (hfits rfl)
    obtain ⟨t, ht, hI', hcon⟩ := tableClear_spec hI
    refine ⟨(memory, t), by rw [retainBy, ht]; rfl, Caches.refl _ _, hI', ?_, fun i hi hl hk => ?_⟩
    · rw [hcon, eq_comm, filter_eq_nil_iff]
      intro p hp
      obtain ⟨i, hi, hr⟩ := mem_entries.1 hp
      obtain ⟨entry, he, rfl⟩ := Option.map_eq_some_iff.1 hr
      obtain ⟨hl, rfl⟩ := entryRow_eq_some.1 he
      exact Bool.eq_false_iff.1 (hall i hi hl)
    · rw [hall i hi hl] at hk
      cases hk
  | keys =>
    obtain ⟨m', t', hdel, hc, hI', hthin⟩ := deleteKeys_spec (rejectedRows table keep) hI (nodup_range.filter _) fun i hi => by
      have := mem_rejectedRows.1 hi
      exact ⟨this.1, this.2.1⟩
    refine ⟨_, hdel, (hthin.congr fun i hi hl => ?_).retained (SameRows.refl _) hc hI'⟩
    rw [keptRow, Bool.eq_iff_iff, decide_eq_true_eq, mem_rejectedRows]
    simp [hi, hl]
  | scan =>
    obtain ⟨m', t', hdel, hc, hI', hthin⟩ := deleteRejected_spec keep (List.range table.entryCount) hI nodup_range
      fun i hi => mem_range.1 hi
    refine ⟨_, hdel, (hthin.congr fun i hi _ => ?_).retained (SameRows.refl _) hc hI'⟩
    simp [keptRow, hi]
  | rebuild =>
    obtain ⟨t', ht, hretained⟩ := rejectRows_spec hI keep
    exact ⟨(memory, t'), by rw [retainBy, ht]; rfl, hretained⟩

/-- **Retain.** One of the ways is taken; none is needed where no row is rejected. -/
theorem tableRetain_eq (env : TableEnv) (memory : StringMemory) (table : MalTable) (keep : MalValue → Bool) :
    ∃ strategy, Fits table keep strategy ∧ tableRetain env memory table keep =
      (retainBy env memory table keep strategy).map fun r => (r.1, r.2, (rejectedRows table keep).length) := by
  unfold tableRetain deleteFew
  dsimp only [Option.bind_eq_bind]
  rw [length_map]
  split_ifs with h1 h2 h3 h4
  · refine ⟨.keys, nofun, ?_⟩
    rw [retainBy, length_eq_zero_iff.1 h1]
    rfl
  · refine ⟨.clear, fun _ => h2, ?_⟩
    rw [retainBy, Option.map_map]
    exact Option.map_eq_bind.symm
  · refine ⟨.keys, nofun, ?_⟩
    rw [take_of_length_le (by rw [length_map]; exact h4)]
    exact Option.map_eq_bind.symm
  · exact ⟨.scan, nofun, Option.map_eq_bind.symm⟩
  refine ⟨.rebuild, nofun, ?_⟩
  rw [retainBy, Option.map_map]
  exact Option.map_eq_bind.symm

end Maligator.Table
