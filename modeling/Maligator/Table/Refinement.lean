/-
The property table as an insertion-ordered association list.

A run is any sequence of the table's operations, with the rest of the program in between: strings may come and go and have
their hashes computed, as long as those in live rows stay (`TableOp.strings`). The abstract list has the operations of an
association list; an entry write goes to the key whose row the handle names.

`tableStep_spec`: one operation does to the contents what it does to the list, unless it is an insertion that aborts in a
table of at least 7 * 2^27 rows. `iterate_eq`: an iterator yields the keys of the list in order.
-/
import Maligator.Table.Remove

namespace Maligator.Table

open Rows Function Option HashIndex KeyRows

variable {env : TableEnv} {memory memory' : StringMemory} {table table' : MalTable}

/-! ## Entry writes -/

def specModify (l : List (TableKey × RowData)) (k : TableKey) (f : RowData → RowData) : List (TableKey × RowData) :=
  l.map fun p => if p.1 = k then (k, f p.2) else p

/-- the identity and the fingerprint of a row are left alone -/
structure SameKey (row row' : MalTableEntry) : Prop where
  identity : row'.key &&& identityMask = row.key &&& identityMask
  fingerprint : row'.key &&& hashMask = row.key &&& hashMask

variable {row row' : MalTableEntry} {s : TableState}

theorem SameKey.keyValue (h : SameKey row row') : keyValue row'.key = keyValue row.key := by
  rw [← keyValue_identity, h.identity, keyValue_identity]

theorem SameKey.wordKey (h : SameKey row row') (units : MalValue → List ℕ) :
    wordKey units row'.key = wordKey units row.key := by
  rw [← wordKey_identity, h.identity, wordKey_identity]

theorem SameKey.rowLive (h : SameKey row row') : rowLive row' = rowLive row := by
  rw [Table.rowLive, Table.rowLive, ← kind_identity, h.identity, kind_identity]

theorem SameKey.wordOk (h : SameKey row row') (hw : WordOk env memory row.key) : WordOk env memory row'.key where
  encoded := by rw [h.identity]; exact hw.encoded
  cached := by rw [← cached_identity, h.identity, cached_identity]; exact hw.cached
  fingerprint := by rw [h.fingerprint, h.keyValue]; exact hw.fingerprint

section Write

variable {i : ℕ}

theorem updateEntry_self (table : MalTable) (i : ℕ) (row : MalTableEntry) : (updateEntry table i row).entries i = row :=
  update_self ..

theorem updateEntry_of_ne (table : MalTable) {j : ℕ} (row : MalTableEntry) (h : j ≠ i) :
    (updateEntry table i row).entries j = table.entries j := update_of_ne h _ _

theorem keyRow_updateEntry (h : SameKey (table.entries i) row) :
    keyRow (updateEntry table i row).entries = keyRow table.entries := by
  funext j
  by_cases hj : j = i
  · subst hj
    rw [keyRow, keyRow, entryRow, entryRow, updateEntry_self, h.rowLive]
    split_ifs
    · rw [map_some, map_some, h.keyValue]
    · rfl
  · exact keyRow_congr (updateEntry_of_ne table row hj)

theorem updateEntry_spec (hI : TableInv env memory table) (hi : i < table.entryCount)
    (hl : rowLive (table.entries i) = true) (h : SameKey (table.entries i) row) {f : RowData → RowData}
    (hf : rowData row = f (rowData (table.entries i))) :
    TableInv env memory (updateEntry table i row) ∧ contents memory.units (updateEntry table i row) =
        specModify (contents memory.units table) (wordKey memory.units (table.entries i).key) f := by
  set key := wordKey memory.units (table.entries i).key with hkey
  have hold : tableRow memory.units table i = some (key, rowData (table.entries i)) := by
    rw [tableRow, entryRow, if_pos hl]
    rfl
  have hrows : tableRow memory.units (updateEntry table i row) = Function.update (tableRow memory.units table) i
      (some (key, rowData row)) := by
    funext j
    rw [tableRow, updateEntry, entryRow_update, h.rowLive, if_pos hl]
    by_cases hj : j = i
    · subst hj
      rw [update_self, update_self, map_some, rowPair, h.wordKey]
    · rw [update_of_ne hj, update_of_ne hj, tableRow]
  have hcon : contents memory.units (updateEntry table i row) =
      Rows.insert (contents memory.units table) key (rowData row) := by
    rw [contents, hrows]
    exact entries_set hI.nodup hi _ hold
  have hlive : livePositions (entryRow (updateEntry table i row).entries) table.entryCount =
      livePositions (entryRow table.entries) table.entryCount := by
    rw [← livePositions_keyRow, keyRow_updateEntry h, livePositions_keyRow]
  refine ⟨?_, ?_⟩
  · refine { memoryOk := hI.memoryOk, words := fun j hj entry he => ?_, nodup := ?_, size := ?_, counts := hI.counts,
             countLe := hI.countLe, capLt := hI.capLt, linear := hI.linear, hashed := fun hcap => ?_ }
    · by_cases hji : j = i
      · subst hji
        obtain ⟨-, rfl⟩ := entryRow_eq_some.1 he
        rw [updateEntry_self]
        exact h.wordOk (hI.words j hi _ (entryRow_eq_some.2 ⟨hl, rfl⟩))
      · rw [entryRow_congr (updateEntry_of_ne table row hji)] at he
        exact hI.words j hj entry he
    · rw [hcon]
      exact nodup_insert _ _ hI.nodup
    · exact hI.size.trans (by rw [← hlive]; rfl)
    · obtain ⟨k, hk, hH⟩ := hI.hashed hcap
      refine ⟨k, hk, ?_⟩
      rw [keyRow_updateEntry h]
      exact hH
  · have hthere : contains (contents memory.units table) key = true := contains_entries.2 ⟨i, hi, _, hold⟩
    rw [hcon, Rows.insert, if_pos hthere]
    refine List.map_congr_left fun p hp => ?_
    by_cases hk : p.1 = key
    · -- the key is in one row only
      have hp' : p = (key, rowData (table.entries i)) :=
        List.inj_on_of_nodup_map hI.nodup hp (mem_entries.2 ⟨i, hi, hold⟩) hk
      rw [if_pos hk, if_pos hk, hf, hp']
    · rw [if_neg hk, if_neg hk]

end Write

section

variable (row : MalTableEntry) (payload : BitVec 64) {x b m : BitVec 64} {flags : BitVec 8}

theorem sameKey_payload : SameKey row { row with payload := payload } := ⟨rfl, rfl⟩

theorem or_and_of_disjoint (h : b &&& m = 0#64) : (x ||| b) &&& m = x &&& m := by
  rw [BitVec.and_or_distrib_right, h, BitVec.or_zero]

theorem andNot_and_of_disjoint (h : ~~~b &&& m = m) : x &&& ~~~b &&& m = x &&& m := by
  rw [BitVec.and_assoc, h]

theorem sameKey_own : SameKey row ⟨row.key ||| ownsData, payload⟩ :=
  ⟨or_and_of_disjoint (by decide), or_and_of_disjoint (by decide)⟩

theorem sameKey_disown : SameKey row ⟨row.key &&& ~~~ownsData, payload⟩ :=
  ⟨andNot_and_of_disjoint (by decide), andNot_and_of_disjoint (by decide)⟩

theorem flags_in_place : ∀ flags : BitVec 8, flags &&& ~~~0x7f#8 = 0 →
    flags.setWidth 64 <<< 50 = flags.setWidth 64 <<< 50 &&& flagsMask ∧
      ((flags.setWidth 64 <<< 50) >>> 50).setWidth 8 = flags := by
  decide

theorem sameKey_flags (h : flags &&& ~~~0x7f#8 = 0) :
    SameKey row { row with key := (row.key &&& ~~~flagsMask) ||| (flags.setWidth 64 <<< 50) } := by
  have hf := (flags_in_place flags h).1
  constructor
  · rw [hf, or_and_of_disjoint (and_and_eq_zero (by decide)), andNot_and_of_disjoint (by decide)]
  · rw [hf, or_and_of_disjoint (and_and_eq_zero (by decide)), andNot_and_of_disjoint (by decide)]

theorem rowData_flags (h : flags &&& ~~~0x7f#8 = 0) :
    rowData { row with key := (row.key &&& ~~~flagsMask) ||| (flags.setWidth 64 <<< 50) } =
      { rowData row with flags := flags } := by
  obtain ⟨hin, hout⟩ := flags_in_place flags h
  rw [rowData, (sameKey_flags row h).keyValue, entryPropertyFlags, rowOwned]
  rw [BitVec.and_or_distrib_right, and_and_eq_zero (by decide), BitVec.zero_or, ← hin, hout, hin,
    or_and_of_disjoint (and_and_eq_zero (by decide)), andNot_and_of_disjoint (by decide)]
  rfl

theorem rowData_own (data : BitVec 64) :
    rowData ⟨row.key ||| ownsData, data⟩ = { rowData row with owned := true, payload := data } := by
  have howned : (row.key ||| ownsData) &&& ownsData ≠ 0 := by
    rw [BitVec.and_or_distrib_right]
    intro hz
    exact absurd (BitVec.or_eq_zero_iff.1 hz).2 (by decide)
  rw [rowData, (sameKey_own row data).keyValue, entryPropertyFlags, rowOwned]
  rw [or_and_of_disjoint (by decide), bne_iff_ne.2 howned]
  rfl

theorem rowData_disown :
    rowData ⟨row.key &&& ~~~ownsData, payload⟩ = { rowData row with owned := false, payload := payload } := by
  rw [rowData, (sameKey_disown row payload).keyValue, entryPropertyFlags, rowOwned]
  rw [andNot_and_of_disjoint (by decide), and_and_eq_zero (by decide)]
  rfl

end

/-! ## Iteration -/

open LiveList in
def iterPlaces (table : MalTable) : List (Option (MalKey × ℕ)) :=
  places (fun i => (entryRow table.entries i).map fun entry => (decodeKey entry.key, i)) table.entryCount

theorem iterNext_eq (table : MalTable) (fuel i : ℕ) (hi : table.entryCount < i + fuel) :
    iterNext table fuel i = LiveList.next (iterPlaces table) i := by
  induction fuel generalizing i with
  | zero =>
    rw [iterNext, LiveList.next_of_end]
    rw [List.getElem?_eq_none_iff, iterPlaces, LiveList.length_places]
    omega
  | succ fuel ih =>
    rw [iterNext]
    by_cases hlt : i < table.entryCount
    · have hplace : (iterPlaces table)[i]? = some ((entryRow table.entries i).map fun entry => (decodeKey entry.key, i)) :=
        LiveList.getElem?_places hlt
      split_ifs with hl
      · rw [entryRow, if_pos hl] at hplace
        rw [LiveList.next_of_entry hplace]
      · rw [entryRow, if_neg hl] at hplace
        rw [ih (i + 1) (by omega), ← LiveList.next_of_empty hplace]
    · rw [if_neg hlt, LiveList.next_of_end]
      rw [List.getElem?_eq_none_iff, iterPlaces, LiveList.length_places]
      omega

/-- **Iteration.** A fresh iterator yields the live rows in order. -/
theorem iterate_eq (table : MalTable) : iterate table (table.entryCount + 1) 0 =
    entries (fun i => (entryRow table.entries i).map fun entry => (decodeKey entry.key, i)) table.entryCount := by
  have hrest : ∀ fuel i, iterate table fuel i = LiveList.rest (iterPlaces table) fuel i := by
    intro fuel
    induction fuel with
    | zero => exact fun _ => rfl
    | succ fuel ih =>
      intro i
      rw [iterate, LiveList.rest, iterNext_eq table _ i (by omega)]
      cases hn : LiveList.next (iterPlaces table) i with
      | mk yielded j =>
        cases yielded with
        | none => rfl
        | some y => dsimp only; rw [ih]
  have hlen : (iterPlaces table).length = table.entryCount := LiveList.length_places _ _
  rw [hrest, LiveList.rest_eq table.entryCount 0 (by omega) _ (Nat.lt_succ_self _), List.drop_zero, iterPlaces,
    LiveList.live_places]

/-! ## Runs -/

structure TableState where
  memory : StringMemory
  table : MalTable

inductive TableOp where
  | upsert (key : MalKey)
  | delete (key : MalKey)
  | retain (keep : MalValue → Bool)
  | clear
  | compact
  | reserve (desiredSize : ℕ)
  | pin
  | unpin
  | setValue (entry : ℕ) (value : MalValue)
  | setFlags (entry : ℕ) (flags : BitVec 8)
  | setOwnedData (entry : ℕ) (data : BitVec 64)
  | lookup (key : MalKey)
  /-- the rest of the program: the strings of the heap become these -/
  | strings (memory : StringMemory)

def tableStep (env : TableEnv) (s : TableState) : TableOp → Option TableState
  | .upsert key => (tableUpsertEntry env s.memory s.table key).map fun r => ⟨r.1, r.2.1⟩
  | .delete key => (tableDelete env s.memory s.table key).map fun r => ⟨r.1, r.2.1⟩
  | .retain keep => (tableRetain env s.memory s.table keep).map fun r => ⟨r.1, r.2.1⟩
  | .clear => (tableClear env s.memory s.table).map fun t => ⟨s.memory, t⟩
  | .compact => (tableCompact env s.memory s.table).map fun t => ⟨s.memory, t⟩
  | .reserve desiredSize => (tableReserve env s.memory s.table desiredSize).map fun r => ⟨s.memory, r.1⟩
  | .pin => some ⟨s.memory, tablePin s.table⟩
  | .unpin => some ⟨s.memory, tableUnpin s.table⟩
  | .setValue entry value => some ⟨s.memory, entrySetValue s.table entry value⟩
  | .setFlags entry flags => (entrySetPropertyFlags s.table entry flags).map fun t => ⟨s.memory, t⟩
  | .setOwnedData entry data => some ⟨s.memory, entrySetOwnedData s.table entry data⟩
  | .lookup key => (tableLookup env s.memory s.table key).map fun r => ⟨r.1, s.table⟩
  | .strings memory => some ⟨memory, s.table⟩

def LiveHandle (s : TableState) (entry : ℕ) : Prop :=
  entry < s.table.entryCount ∧ rowLive (s.table.entries entry) = true

/-- what callers owe: property keys, live handles, seven flag bits, and strings that outlive their entries -/
def Legal (env : TableEnv) (s : TableState) : TableOp → Prop
  | .upsert key | .delete key | .lookup key => (key.den s.memory.units).isSome = true
  | .setValue entry _ | .setOwnedData entry _ => LiveHandle s entry
  | .setFlags entry flags => LiveHandle s entry ∧ flags &&& ~~~0x7f#8 = 0
  | .strings memory => MemoryOk env.contentHash memory ∧ ∀ i < s.table.entryCount, rowLive (s.table.entries i) = true →
      memory.units (keyValue (s.table.entries i).key) = s.memory.units (keyValue (s.table.entries i).key) ∧
        Cached memory (s.table.entries i).key
  | _ => True

def handleKey (s : TableState) (entry : ℕ) : TableKey := wordKey s.memory.units (s.table.entries entry).key

def listStep (s : TableState) (l : List (TableKey × RowData)) : TableOp → List (TableKey × RowData)
  | .upsert key => (key.den s.memory.units).elim l fun k => specUpsert l k (storedValue key)
  | .delete key => (key.den s.memory.units).elim l (Rows.erase l)
  | .retain keep => l.filter fun p => keep p.2.value
  | .clear => []
  | .setValue entry value => specModify l (handleKey s entry) fun d => { d with payload := value }
  | .setFlags entry flags => specModify l (handleKey s entry) fun d => { d with flags := flags }
  | .setOwnedData entry data => specModify l (handleKey s entry) fun d =>
      if data ≠ 0 then { d with owned := true, payload := data }
      else { d with owned := false, payload := valueUndefined }
  | .compact | .reserve _ | .pin | .unpin | .lookup _ | .strings _ => l

theorem TableInv.setPins (h : TableInv env memory table) (pins : ℕ) :
    TableInv env memory { table with iteratorPins := pins } :=
  { memoryOk := h.memoryOk, words := h.words, nodup := h.nodup, size := h.size, counts := h.counts, countLe := h.countLe
    capLt := h.capLt, linear := h.linear, hashed := h.hashed }

theorem strings_spec (hI : TableInv env s.memory s.table) (h : Legal env s (.strings memory)) :
    TableInv env memory s.table ∧ contents memory.units s.table = contents s.memory.units s.table := by
  obtain ⟨hm, hrows⟩ := h
  have hrow : ∀ i < s.table.entryCount, ∀ entry, entryRow s.table.entries i = some entry → Cached memory entry.key ∧
      wordKey memory.units entry.key = wordKey s.memory.units entry.key ∧
      keyHashValue (wordEnv env.contentHash memory.units) (keyValue entry.key) =
        keyHashValue (wordEnv env.contentHash s.memory.units) (keyValue entry.key) := by
    intro i hi entry he
    obtain ⟨hl, rfl⟩ := entryRow_eq_some.1 he
    obtain ⟨hunits, hcached⟩ := hrows i hi hl
    refine ⟨hcached, by rw [wordKey, wordKey, hunits], ?_⟩
    rw [keyHashValue, keyHashValue, wordEnv, wordEnv]
    dsimp only
    rw [hunits]
  have hcon : contents memory.units s.table = contents s.memory.units s.table := by
    refine entries_congr fun i hi => ?_
    rw [tableRow, tableRow]
    cases he : entryRow s.table.entries i with
    | none => rfl
    | some entry => rw [map_some, map_some, rowPair, rowPair, (hrow i hi entry he).2.1]
  refine ⟨{ memoryOk := hm, words := fun i hi entry he => ?_, nodup := by rw [hcon]; exact hI.nodup, size := hI.size
            counts := hI.counts, countLe := hI.countLe, capLt := hI.capLt, linear := hI.linear
            hashed := fun hcap => ?_ }, hcon⟩
  · have hw := hI.words i hi entry he
    exact ⟨hw.encoded, (hrow i hi entry he).1, by rw [(hrow i hi entry he).2.2]; exact hw.fingerprint⟩
  · obtain ⟨k, hk, hH⟩ := hI.hashed hcap
    refine ⟨k, hk, hH.congr_hash fun i hi => ?_⟩
    obtain ⟨hlt, hsome⟩ := mem_livePositions.1 hi
    rw [keyRow, isSome_map] at hsome
    obtain ⟨entry, he⟩ := isSome_iff_exists.1 hsome
    rw [rowHash, rowHash, keyRow, he, map_some, getD_some, (hrow i hlt entry he).2.2]

/-! ## Rows stay where they are -/

section

variable {units : MalValue → List ℕ} {k : TableKey} {i : ℕ}

def HasRow (units : MalValue → List ℕ) (table : MalTable) (k : TableKey) (i : ℕ) : Prop :=
  i < table.entryCount ∧ ∃ entry, entryRow table.entries i = some entry ∧ wordKey units entry.key = k

theorem HasRow.of_entry (h : HasRow units table k i) (hi : i < table'.entryCount)
    (he : table'.entries i = table.entries i) : HasRow units table' k i := by
  refine ⟨hi, ?_⟩
  rw [entryRow_congr he]
  exact h.2

theorem HasRow.of_mem (hI : TableRowInv env memory table) (h : HasRow memory.units table k i) {p : TableKey × RowData}
    (hp : p ∈ contents memory.units table) (hk : p.1 = k) : p = rowPair memory.units (table.entries i) := by
  obtain ⟨hi, entry, he, hkey⟩ := h
  obtain ⟨-, rfl⟩ := entryRow_eq_some.1 he
  exact List.inj_on_of_nodup_map hI.nodup hp (mem_entries.2 ⟨i, hi, by rw [tableRow, he, map_some]⟩) (hk.trans hkey.symm)

theorem HasRow.of_thinned (hI : TableRowInv env memory table) (h : HasRow memory.units table k i) {p : ℕ → Bool}
    (hthin : Thinned p table table') (hk : contains (contents memory.units table') k = true) :
    HasRow memory.units table' k i := by
  obtain ⟨j, hj, d, hr⟩ := contains_entries.1 hk
  obtain ⟨entry, he, hp⟩ := map_eq_some_iff.1 hr
  have hold := hthin.some (hthin.count ▸ hj) he
  obtain ⟨hi, entry', he', hk'⟩ := h
  obtain rfl := position_unique hI.nodup hi (hthin.count ▸ hj) (by rw [tableRow, he', map_some, rowPair, hk'])
    (by rw [tableRow, hold, map_some, hp])
  exact ⟨hj, entry, he, congrArg Prod.fst hp⟩

theorem HasRow.of_retained (hI : TableRowInv env memory table) (h : HasRow memory.units table k i)
    {keep : MalValue → Bool} (hr : Retained env memory table keep (memory', table'))
    (hk : contains (contents memory'.units table') k = true) : HasRow memory'.units table' k i := by
  rw [hr.contents, contains_iff, List.mem_map] at hk
  obtain ⟨p, hp, hpk⟩ := hk
  rw [List.mem_filter] at hp
  have hkeep := hp.2
  rw [h.of_mem hI hp.1 hpk] at hkeep
  obtain ⟨-, hi, he⟩ := hr.survivors i h.1 (by obtain ⟨-, entry, he, -⟩ := h; exact (entryRow_eq_some.1 he).1) hkeep
  rw [hr.caches.units]
  exact h.of_entry hi he

theorem HasRow.of_update {entry : ℕ} (h : HasRow units table k i)
    (hs : SameKey (table.entries entry) row) : HasRow units (updateEntry table entry row) k i := by
  obtain ⟨hi, e, he, hk⟩ := h
  by_cases hie : i = entry
  · subst hie
    obtain ⟨hl, rfl⟩ := entryRow_eq_some.1 he
    exact ⟨hi, row, entryRow_eq_some.2 ⟨by rw [updateEntry_self, hs.rowLive, hl], updateEntry_self ..⟩,
      by rw [hs.wordKey, hk]⟩
  · exact ⟨hi, e, by rw [entryRow_congr (updateEntry_of_ne table row hie), he], hk⟩

end

/-- while the epoch stays, a row leaves its position only with its key -/
def Keeps (s s' : TableState) : Prop :=
  s'.table.handleEpoch = s.table.handleEpoch → ∀ k i, HasRow s.memory.units s.table k i →
    contains (contents s'.memory.units s'.table) k = true → HasRow s'.memory.units s'.table k i

/-- the state refines the list -/
structure Tracks (env : TableEnv) (s : TableState) (l : List (TableKey × RowData)) : Prop where
  inv : TableInv env s.memory s.table
  list : contents s.memory.units s.table = l

variable {l : List (TableKey × RowData)}

theorem updateEntry_tracks (hI : TableInv env s.memory s.table) {entry : ℕ} (hlive : LiveHandle s entry)
    (h : SameKey (s.table.entries entry) row) {f : RowData → RowData}
    (hf : rowData row = f (rowData (s.table.entries entry))) : Tracks env ⟨s.memory, updateEntry s.table entry row⟩
        (specModify (contents s.memory.units s.table) (handleKey s entry) f) ∧
      Keeps s ⟨s.memory, updateEntry s.table entry row⟩ :=
  have hspec := updateEntry_spec hI hlive.1 hlive.2 h hf
  ⟨⟨hspec.1, hspec.2⟩, fun _ _ _ hrow _ => hrow.of_update h⟩

theorem tableStep_spec (h : Tracks env s l) {op : TableOp} (hlegal : Legal env s op) : match tableStep env s op with
    | none => (∃ key, op = .upsert key) ∧ memberLimit ≤ s.table.entryCount
    | some s' => Tracks env s' (listStep s l op) ∧ Keeps s s' := by
  obtain ⟨hI, rfl⟩ := h
  cases op with
  | upsert key =>
    obtain ⟨k, hk⟩ := isSome_iff_exists.1 hlegal
    rcases tableUpsertEntry_spec hI hk with ⟨hstep, hlimit⟩ | ⟨m', t', entry, inserted, hstep, hc, hI', hcon, -, -, hold⟩
    · rw [tableStep, hstep]
      exact ⟨⟨key, rfl⟩, hlimit⟩
    rw [tableStep, hstep]
    refine ⟨⟨hI', ?_⟩, fun _ k i h _ => ?_⟩
    · rw [hc.units, hcon, listStep, hk]
      rfl
    · rw [hc.units]
      exact h.of_entry (hold i h.1).1 (hold i h.1).2
  | delete key =>
    obtain ⟨k, hk⟩ := isSome_iff_exists.1 hlegal
    obtain ⟨hden, -⟩ := encodeKey_spec s.memory.units key
    rw [hk] at hden
    obtain ⟨q, hq, rfl⟩ := map_eq_some_iff.1 hden
    obtain ⟨m', t', found, hstep, hc, hI', hout⟩ := tableDelete_spec hI hq
    rw [tableStep, hstep]
    rw [listStep, hk]
    dsimp only [map_some]
    rw [Keeps, hc.units]
    rcases hout with ⟨-, i, hrow, hthin⟩ | ⟨-, rfl, habs⟩
    · exact ⟨⟨hI', by rw [hc.units]; exact hthin.erase hI.toTableRowInv hrow⟩,
        fun _ k i h hk => h.of_thinned hI.toTableRowInv hthin hk⟩
    · exact ⟨⟨hI', by rw [hc.units]; exact (erase_of_not_contains habs).symm⟩, fun _ _ _ h _ => h⟩
  | retain keep =>
    obtain ⟨strategy, hfits, hstep⟩ := tableRetain_eq env s.memory s.table keep
    obtain ⟨result, hresult, hretained⟩ := retainBy_spec hI hfits
    rw [tableStep, hstep, hresult]
    exact ⟨⟨hretained.inv, hretained.contents⟩, fun _ k i h hk => h.of_retained hI.toTableRowInv hretained hk⟩
  | clear =>
    obtain ⟨t', hstep, hI', hcon⟩ := tableClear_spec hI
    rw [tableStep, hstep]
    refine ⟨⟨hI', hcon⟩, fun _ k i _ hk => ?_⟩
    rw [hcon] at hk
    cases hk
  | compact =>
    obtain ⟨t', hstep, hI', hcon, hout⟩ := tableCompact_spec hI
    rw [tableStep, hstep]
    refine ⟨⟨hI', hcon _⟩, fun hepoch k i h _ => ?_⟩
    rcases hout with rfl | hne
    · exact h
    · exact absurd hepoch hne
  | reserve n =>
    obtain ⟨t', ok, hstep, hsame, hI'⟩ := tableReserve_spec hI n
    rw [tableStep, hstep]
    exact ⟨⟨hI', hsame.contents _⟩, fun _ k i h _ => h.of_entry (hsame.count.symm ▸ h.1) (hsame.rows i h.1)⟩
  | pin | unpin => exact ⟨⟨hI.setPins _, rfl⟩, fun _ _ _ h _ => h⟩
  | setValue entry value =>
    exact updateEntry_tracks hI hlegal (sameKey_payload _ value) (f := fun d => { d with payload := value }) rfl
  | setFlags entry flags =>
    obtain ⟨hlive, hf⟩ := hlegal
    rw [tableStep, entrySetPropertyFlags, if_neg (not_not.2 hf)]
    exact updateEntry_tracks hI hlive (sameKey_flags _ hf) (f := fun d => { d with flags := flags }) (rowData_flags _ hf)
  | setOwnedData entry data =>
    rw [tableStep, entrySetOwnedData, listStep]
    split_ifs with hd
    · exact updateEntry_tracks hI hlegal (sameKey_own _ data) (rowData_own _ data)
    · exact updateEntry_tracks hI hlegal (sameKey_disown _ valueUndefined) (rowData_disown _ valueUndefined)
  | lookup key =>
    obtain ⟨k, hk⟩ := isSome_iff_exists.1 hlegal
    obtain ⟨m', found, hstep, hc, -⟩ := tableLookup_spec hI hk
    rw [tableStep, hstep]
    refine ⟨⟨hI.mono hc, by dsimp only; rw [hc.units]; rfl⟩, fun _ k i h _ => ?_⟩
    rw [hc.units]
    exact h
  | strings memory =>
    refine ⟨⟨(strings_spec hI hlegal).1, (strings_spec hI hlegal).2⟩, ?_⟩
    rintro - k i ⟨hi, entry, he, hkey⟩ -
    obtain ⟨hl, rfl⟩ := entryRow_eq_some.1 he
    refine ⟨hi, _, he, ?_⟩
    rw [← hkey, wordKey, wordKey, (hlegal.2 i hi hl).1]

/-- how a run ends -/
inductive RunResult where
  | finished (s : TableState) (l : List (TableKey × RowData))
  | aborted (s : TableState) (op : TableOp)

def tableRun (env : TableEnv) : TableState → List (TableKey × RowData) → List TableOp → RunResult
  | s, l, [] => .finished s l
  | s, l, op :: ops =>
    match tableStep env s op with
    | none => .aborted s op
    | some s' => tableRun env s' (listStep s l op) ops

def LegalRun (env : TableEnv) : TableState → List TableOp → Prop
  | _, [] => True
  | s, op :: ops => Legal env s op ∧
    match tableStep env s op with
    | none => True
    | some s' => LegalRun env s' ops

theorem tableRun_spec (ops : List TableOp) : ∀ {s : TableState} {l : List (TableKey × RowData)}, Tracks env s l →
    LegalRun env s ops → match tableRun env s l ops with
    | .aborted s' op => (∃ key, op = .upsert key) ∧ memberLimit ≤ s'.table.entryCount
    | .finished s' l' => Tracks env s' l' := by
  induction ops with
  | nil => exact fun h _ => h
  | cons op ops ih =>
    intro s l h hlegal
    have hstep := tableStep_spec h hlegal.1
    have hrest := hlegal.2
    rw [tableRun]
    cases hs : tableStep env s op with
    | none =>
      rw [hs] at hstep
      exact hstep
    | some s' =>
      rw [hs] at hstep hrest
      exact ih hstep.1 hrest

theorem tracks_new (env : TableEnv) (hm : MemoryOk env.contentHash memory) : Tracks env ⟨memory, tableNew env⟩ [] where
  inv :=
    { memoryOk := hm, words := nofun, nodup := List.nodup_nil, size := rfl, counts := rfl
      countLe := le_rfl, capLt := by change 0 < 2 ^ 31; decide, linear := fun _ => Nat.zero_le _
      hashed := absurd rfl }
  list := rfl

/-- the table answers as the list does -/
structure Agrees (env : TableEnv) (s : TableState) (l : List (TableKey × RowData)) : Prop where
  /-- row by row, in insertion order -/
  rows : contents s.memory.units s.table = l
  keys : (l.map Prod.fst).Nodup
  /-- a key is found exactly when it is in the list, in the row of its data -/
  lookup : ∀ key k, key.den s.memory.units = some k → ∃ memory' found,
    tableLookup env s.memory s.table key = some (memory', found) ∧ (found.isSome = true ↔ k ∈ l.map Prod.fst) ∧
      ∀ i, found = some i → Rows.lookup l k = some (rowData (s.table.entries i))
  /-- where the direct probe answers, so does the hashed or linear search, with the same row -/
  probe : ∀ key q i, encodeKey key = some q → directProbe s.table q = some i →
    lookupEntry (searchHash env s.memory s.table q).1 s.table q (searchHash env s.memory s.table q).2 = some (some i)
  /-- an iterator yields the keys in first-insertion order, each as it was inserted -/
  iteration : (iterate s.table (s.table.entryCount + 1) 0).map (fun y => (y.1.den s.memory.units, y.1.value)) =
    l.map fun p => (some p.1, p.2.value)
  counts : s.table.size + s.table.tombstoneCount = s.table.entryCount
  size : s.table.size = l.length

theorem Tracks.agrees (h : Tracks env s l) : Agrees env s l := by
  obtain ⟨hI, rfl⟩ := h
  refine ⟨rfl, hI.nodup, fun key k hk => ?_, fun key q i hq hd => ?_, ?_, hI.counts, ?_⟩
  · obtain ⟨memory', found, hl, -, hans⟩ := tableLookup_spec hI hk
    refine ⟨memory', found, hl, ?_, ?_⟩
    · rw [← contains_iff]
      cases found with
      | none =>
        have habs : contains (contents s.memory.units s.table) k = false := hans
        exact iff_of_false (by simp) (by simp [habs])
      | some i => exact iff_of_true rfl (contains_entries.2 ⟨i, hans.1, _, hans.2⟩)
    · rintro i rfl
      exact lookup_entries hI.nodup hans.1 hans.2
  · have he := (encodeKey_spec s.memory.units key).2 q hq
    obtain ⟨hc, hh⟩ := searchHash_spec hI.memoryOk he s.table
    exact directProbe_eq (hI.mono hc) he hh hd
  · rw [iterate_eq, contents, ← entries_map, ← entries_map]
    refine entries_congr fun i hi => ?_
    rw [map_map, tableRow, map_map]
    refine map_congr fun entry he => ?_
    -- the stored word denotes what it decodes to
    obtain ⟨henc, -, -⟩ := encode_stored hI.toTableRowInv hi he
    have hden := (encodeKey_spec s.memory.units (decodeKey entry.key)).1
    rw [henc, map_some, wordKey_identity] at hden
    rw [comp]
    rw [← hden]
    rfl
  · rw [hI.size, length_contents]

/-- **The property table refines an insertion-ordered association list.** Over every run the table and the list agree; an
abort is an insertion into a table of at least 7 * 2^27 rows. -/
theorem table_refines_list (env : TableEnv) (memory : StringMemory) (hm : MemoryOk env.contentHash memory)
    (ops : List TableOp) (hlegal : LegalRun env ⟨memory, tableNew env⟩ ops) :
    match tableRun env ⟨memory, tableNew env⟩ [] ops with
    | .aborted s op => (∃ key, op = .upsert key) ∧ memberLimit ≤ s.table.entryCount
    | .finished s l => Agrees env s l := by
  have h := tableRun_spec ops (tracks_new env hm) hlegal
  cases hr : tableRun env ⟨memory, tableNew env⟩ [] ops with
  | aborted s op =>
    rw [hr] at h
    exact h
  | finished s l =>
    rw [hr] at h
    exact h.agrees

def sampleMemory : StringMemory where
  units := fun v => if v = 0xFFFA000000000030#64 then [98] else [97]
  hash := fun _ => 0
  hashValid := fun _ => false

def sampleEnv : TableEnv where
  contentHash := fun units => BitVec.ofNat 64 (units.foldl (fun h u => h * 31 + u) 7)
  freshEntries := fun _ => ⟨0, 0⟩
  freshSlots := fun _ => 0

def sampleOps : List TableOp :=
  [.upsert ⟨.index, 0xFFF8000000000000#64⟩, .upsert ⟨.string, 0xFFFA000000000010#64⟩,
    .upsert ⟨.symbol, 0xFFFB000000000010#64⟩, .upsert ⟨.index, 0xFFF8000000000003#64⟩, .setFlags 1 7#8,
    .upsert ⟨.string, 0xFFFA000000000020#64⟩, .upsert ⟨.string, 0xFFFA000000000030#64⟩,
    .delete ⟨.index, 0xFFF8000000000000#64⟩, .compact, .setValue 0 0xFFFA000000000010#64,
    .setValue 2 0xFFFA000000000030#64]

theorem sampleOps_legal : LegalRun sampleEnv ⟨sampleMemory, tableNew sampleEnv⟩ sampleOps :=
  ⟨rfl, rfl, rfl, rfl, ⟨⟨Nat.le_of_ble_eq_true rfl, rfl⟩, rfl⟩, rfl, rfl, rfl, trivial, ⟨Nat.le_of_ble_eq_true rfl, rfl⟩,
    ⟨Nat.le_of_ble_eq_true rfl, rfl⟩, trivial⟩

theorem table_refines_list_sample : ∃ s l, tableRun sampleEnv ⟨sampleMemory, tableNew sampleEnv⟩ [] sampleOps = .finished s l ∧
    Agrees sampleEnv s l ∧ l.map Prod.fst = [.string [97], .symbol 0xFFFB000000000010#64, .index 3, .string [98]] :=
  ⟨_, _, rfl, table_refines_list sampleEnv sampleMemory nofun sampleOps sampleOps_legal, rfl⟩

def sampleState : TableState :=
  match tableRun sampleEnv ⟨sampleMemory, tableNew sampleEnv⟩ [] sampleOps with
  | .finished s _ => s
  | .aborted s _ => s

theorem sampleState_tracks : ∃ l, tableRun sampleEnv ⟨sampleMemory, tableNew sampleEnv⟩ [] sampleOps = .finished sampleState l ∧
    Tracks sampleEnv sampleState l :=
  ⟨_, rfl, tableRun_spec sampleOps (tracks_new sampleEnv fun _ h => by cases h) sampleOps_legal⟩

/-! ## Filtering -/

theorem length_rejectedRows (units : MalValue → List ℕ) (table : MalTable) (keep : MalValue → Bool) :
    (rejectedRows table keep).length = ((contents units table).filter fun p => !keep p.2.value).length := by
  rw [rejectedRows, ← List.countP_eq_length_filter, ← List.countP_eq_length_filter, contents, entries, List.countP_filterMap]
  congr 1
  funext i
  rw [tableRow, entryRow]
  cases rowLive (table.entries i) <;> rfl

/-- **A filter is strategy-independent.** Each way leaves a table that answers as the filtered list, with the survivors in
their places; `mal_table_retain` takes one of them and returns the number of rejected entries. -/
theorem retain_strategy_independent (hI : TableInv env memory table) (keep : MalValue → Bool) :
    (∀ strategy, Fits table keep strategy → ∃ memory' table',
      retainBy env memory table keep strategy = some (memory', table') ∧ Retained env memory table keep (memory', table') ∧
        Agrees env ⟨memory', table'⟩ ((contents memory.units table).filter fun p => keep p.2.value)) ∧
    ∃ strategy, Fits table keep strategy ∧ tableRetain env memory table keep =
      (retainBy env memory table keep strategy).map fun r =>
        (r.1, r.2, ((contents memory.units table).filter fun p => !keep p.2.value).length) := by
  refine ⟨fun strategy hfits => ?_, ?_⟩
  · obtain ⟨⟨memory', table'⟩, hresult, h⟩ := retainBy_spec hI hfits
    exact ⟨memory', table', hresult, h, Tracks.agrees ⟨h.inv, h.contents⟩⟩
  · rw [← length_rejectedRows]
    exact tableRetain_eq env memory table keep

/-- keeping the string keys drops the symbol and the index, by the keys, by a scan and by a rebuild alike -/
theorem retain_strategy_independent_sample : (∀ strategy ≠ .clear, ∃ memory' table',
      retainBy sampleEnv sampleState.memory sampleState.table valueIsString strategy = some (memory', table') ∧
        ∃ l, l.map Prod.fst = [.string [97], .string [98]] ∧ Agrees sampleEnv ⟨memory', table'⟩ l) ∧
    ∃ strategy, Fits sampleState.table valueIsString strategy ∧
      tableRetain sampleEnv sampleState.memory sampleState.table valueIsString =
        (retainBy sampleEnv sampleState.memory sampleState.table valueIsString strategy).map fun r => (r.1, r.2, 2) := by
  obtain ⟨l, -, h⟩ := sampleState_tracks
  obtain ⟨hways, hretain⟩ := retain_strategy_independent h.inv valueIsString
  refine ⟨fun strategy hne => ?_, hretain⟩
  obtain ⟨memory', table', hresult, -, hagrees⟩ := hways strategy fun hclear => absurd hclear hne
  exact ⟨memory', table', hresult, _, rfl, hagrees⟩

end Maligator.Table
