/-
Entry handles of a property table: the cached handle with its epoch, and the hints read without one (`table.c`, `table.h`).

`entryMatches_iff`: a handle matches exactly when the epoch is the table's and its row is the live row of the key.
-/
import Maligator.Table.Refinement

namespace Maligator.Table

open Rows Option

variable {env : TableEnv} {memory memory' : StringMemory} {table table' : MalTable} {units : MalValue → List ℕ}
  {q : BitVec 64} {i : ℕ} {k : TableKey}

/-! ## Handles -/

section

variable (table : MalTable) (entry : Option ℕ) (key : MalValue)

/-- mal_table_handle_row; a null handle is `none` -/
def handleRow : Option MalTableEntry :=
  entry.bind fun index => if index < table.entryCount then some (table.entries index) else none

def entryIsLive : Bool := (handleRow table entry).any rowLive

/-- the memory after the key has been hashed, and the answer -/
def entryMatches (env : TableEnv) (memory : StringMemory) (handleEpoch : BitVec 64) (key : MalKey) :
    Option (StringMemory × Bool) :=
  match handleRow table entry with
  | none => some (memory, false)
  | some candidate =>
    if handleEpoch ≠ table.handleEpoch ∨ rowLive candidate = false then some (memory, false)
    else do
      let encoded ← encodeKey key
      if table.index.capacity = 0 then return (memory, keyEquals memory candidate encoded false)
      let hashed := keyHash env.contentHash memory encoded
      return (hashed.1, candidate.key &&& hashMask == hashFingerprint hashed.2 && keyEquals hashed.1 candidate encoded true)

/-- mal_table_hinted_row; the key is encoded for a live row only -/
def hintedRow : Option (Option MalTableEntry) :=
  match (handleRow table entry).filter rowLive with
  | none => some none
  | some candidate => do
    let encoded ← encodeKey (keyFromValue key)
    return if candidate.key &&& identityMask ≠ encoded then none else some candidate

/-- the value and the flags; `some none` is a miss -/
def readEntryHint : Option (Option (MalValue × BitVec 8)) :=
  (hintedRow table entry key).map fun row =>
    (row.filter fun row => !rowOwned row).map fun row => (row.payload, entryPropertyFlags row)

def namedHintRead : Option (MalValue × BitVec 8) :=
  let kind := if valueIsString key then kindString else if valueIsSymbol key then kindSymbol else 0
  (handleRow table entry).bind fun row =>
    if kind = 0 ∨ row.key &&& (identityMask ||| ownsData) ≠ kind ||| (key &&& pointerMask) then none
    else some (row.payload, entryPropertyFlags row)

/-- the hint of a symbol counts from one; zero is no hint -/
def privateHintRead : Option MalValue :=
  (handleRow table entry).bind fun row =>
    if row.key &&& identityMask ≠ kindSymbol ||| (key &&& pointerMask) then none else some row.payload

end

def Finds (env : TableEnv) (memory : StringMemory) (table : MalTable) (key : MalKey) (i : ℕ) : Prop :=
  ∃ memory', tableLookup env memory table key = some (memory', some i)

theorem handleRow_eq_some {entry : Option ℕ} {row : MalTableEntry} :
    handleRow table entry = some row ↔ ∃ i, entry = some i ∧ i < table.entryCount ∧ table.entries i = row := by
  cases entry <;> simp [handleRow]

section

variable (hI : TableInv env memory table)
include hI

theorem finds_of_rowAt {key : MalKey} (hq : encodeKey key = some q)
    (h : RowAt memory.units table q i) : Finds env memory table key i := by
  have hden := (encodeKey_spec memory.units key).1
  rw [hq] at hden
  obtain ⟨memory', found, hl, -, hans⟩ := tableLookup_spec hI hden.symm
  cases found with
  | none =>
    rw [Answers, h.contains] at hans
    cases hans
  | some j =>
    obtain rfl := position_unique hI.nodup h.1 hans.1 h.tableRow hans.2
    exact ⟨memory', hl⟩

omit hI in
theorem rowAt_of_identity (units : MalValue → List ℕ) (hq : Encoded q) (hi : i < table.entryCount)
    (h : (table.entries i).key &&& identityMask = q) : RowAt units table q i := by
  refine ⟨hi, _, entryRow_eq_some.2 ⟨?_, rfl⟩, by rw [← wordKey_identity, h]⟩
  rw [rowLive, bne_iff_ne, ← kind_identity, h]
  exact hq.kind_ne_zero

theorem entryMatches_iff {key : MalKey} (hq : encodeKey key = some q) (entry : Option ℕ)
    (epoch : BitVec 64) : ∃ memory' answer, entryMatches table entry env memory epoch key = some (memory', answer) ∧
      (answer = true ↔ epoch = table.handleEpoch ∧ ∃ i, entry = some i ∧ RowAt memory.units table q i) := by
  have he := (encodeKey_spec memory.units key).2 q hq
  unfold entryMatches
  cases hrow : handleRow table entry with
  | none =>
    refine ⟨memory, false, rfl, iff_of_false (by simp) ?_⟩
    rintro ⟨-, i, hi, hlt, -⟩
    rw [handleRow_eq_some.2 ⟨i, hi, hlt, rfl⟩] at hrow
    cases hrow
  | some row =>
    obtain ⟨i, rfl, hi, rfl⟩ := handleRow_eq_some.1 hrow
    dsimp only
    by_cases hno : epoch ≠ table.handleEpoch ∨ rowLive (table.entries i) = false
    · rw [if_pos hno]
      refine ⟨memory, false, rfl, iff_of_false (by simp) ?_⟩
      rintro ⟨hepoch, j, hj, -, entry, hentry, -⟩
      obtain rfl := some.inj hj
      rcases hno with hno | hdead
      · exact hno hepoch
      · rw [(entryRow_eq_some.1 hentry).1] at hdead
        cases hdead
    rw [if_neg hno, hq]
    rw [not_or, not_not, Bool.not_eq_false] at hno
    have hentry := entryRow_eq_some.2 ⟨hno.2, rfl⟩
    have hw := hI.words i hi _ hentry
    have hrowAt : wordKey memory.units (table.entries i).key = wordKey memory.units q ↔
        epoch = table.handleEpoch ∧ ∃ j, some i = some j ∧ RowAt memory.units table q j := by
      refine ⟨fun h => ⟨hno.1, i, rfl, hi, _, hentry, h⟩, ?_⟩
      rintro ⟨-, j, hj, -, entry, hentry', hk⟩
      obtain rfl := some.inj hj
      rwa [← (entryRow_eq_some.1 hentry').2] at hk
    split_ifs with hcap
    · have hequal : keyEquals memory (table.entries i) q false = true ↔ _ :=
        keyEquals_iff hw.encoded he hI.memoryOk nofun
      exact ⟨memory, _, rfl, hequal.trans hrowAt⟩
    obtain ⟨hc, hcached, hhash⟩ := keyHash_spec hI.memoryOk he
    have hI' := (hI.mono hc).toTableRowInv
    rw [← hc.units] at hhash
    have hhit := probeHit_iff hI' he hcached hhash i hi (keyValue (table.entries i).key)
      (by rw [keyRow, hentry, map_some])
    rw [den_entry_iff hI' he hi hentry, hc.units] at hhit
    exact ⟨_, _, rfl, hhit.trans hrowAt⟩

/-! ## Hints -/

def Reads (env : TableEnv) (memory : StringMemory) (table : MalTable) (key : MalKey) (read : MalValue × BitVec 8) : Prop :=
  ∃ i, Finds env memory table key i ∧ rowOwned (table.entries i) = false ∧
    read = ((table.entries i).payload, entryPropertyFlags (table.entries i))

theorem readEntryHint_reads {entry : Option ℕ} {key : MalValue} {read : MalValue × BitVec 8}
    (h : readEntryHint table entry key = some (some read)) : Reads env memory table (keyFromValue key) read := by
  obtain ⟨row, hrow, h⟩ := map_eq_some_iff.1 h
  obtain ⟨row, hr, rfl⟩ := map_eq_some_iff.1 h
  obtain ⟨rfl, howned⟩ := filter_eq_some_iff.1 hr
  unfold hintedRow at hrow
  cases hf : (handleRow table entry).filter rowLive with
  | none =>
    rw [hf] at hrow
    cases hrow
  | some candidate =>
    rw [hf] at hrow
    obtain ⟨q, hq, hrow⟩ := bind_eq_some_iff.1 hrow
    obtain ⟨i, rfl, hi, rfl⟩ := handleRow_eq_some.1 (filter_eq_some_iff.1 hf).1
    simp only [pure_def, some.injEq] at hrow
    split_ifs at hrow with hidentity
    obtain rfl := some.inj hrow
    have hrowAt := rowAt_of_identity memory.units ((encodeKey_spec memory.units _).2 q hq) hi (not_not.1 hidentity)
    exact ⟨i, finds_of_rowAt hI hq hrowAt, by simpa using howned, rfl⟩

theorem namedHintRead_reads {entry : Option ℕ} {key : MalValue} {read : MalValue × BitVec 8}
    (h : namedHintRead table entry key = some read) : Reads env memory table (keyFromValue key) read := by
  rw [namedHintRead] at h
  generalize hkind : (if valueIsString key then kindString else if valueIsSymbol key then kindSymbol else 0) = kind at h
  obtain ⟨row, hrow, h⟩ := bind_eq_some_iff.1 h
  obtain ⟨i, rfl, hi, rfl⟩ := handleRow_eq_some.1 hrow
  split_ifs at h with hmiss
  obtain rfl := some.inj h
  rw [not_or, not_not] at hmiss
  obtain ⟨hne, hword⟩ := hmiss
  generalize hq : kind ||| (key &&& pointerMask) = q at hword
  have henc : encodeKey (keyFromValue key) = some q := by
    rw [← hq, ← hkind, keyFromValue, keyKindOf]
    split_ifs at hkind ⊢ with hs hy
    · simp [encodeKey, hs]
    · simp [encodeKey, hy]
    all_goals exact absurd hkind.symm hne
  have he := (encodeKey_spec memory.units _).2 q henc
  have hmask : ∀ m, (identityMask ||| ownsData) &&& m = m → (table.entries i).key &&& m = q &&& m := fun m hm => by
    rw [← hword, BitVec.and_assoc, hm]
  refine ⟨i, finds_of_rowAt hI henc (rowAt_of_identity memory.units he hi ?_), ?_, rfl⟩
  · rw [hmask _ (by decide), he.and_identityMask]
  · rw [rowOwned, hmask _ (by decide), he.and_eq_zero (by decide)]
    rfl

theorem privateHintRead_finds {entry : Option ℕ} {symbol value : MalValue}
    (hs : valueIsSymbol symbol = true) (h : privateHintRead table entry symbol = some value) :
    ∃ i, Finds env memory table ⟨.symbol, symbol⟩ i ∧ value = (table.entries i).payload := by
  obtain ⟨row, hrow, h⟩ := bind_eq_some_iff.1 h
  obtain ⟨i, rfl, hi, rfl⟩ := handleRow_eq_some.1 hrow
  split_ifs at h with hmiss
  have henc : encodeKey ⟨.symbol, symbol⟩ = some (kindSymbol ||| (symbol &&& pointerMask)) := by simp [encodeKey, hs]
  exact ⟨i, finds_of_rowAt hI henc (rowAt_of_identity memory.units (.symbol symbol) hi (not_not.1 hmiss)), (some.inj h).symm⟩

/-! ## Runs -/

end

variable {s s' : TableState}

/-- operations that neither move the epoch nor take out the key -/
def Undisturbed (env : TableEnv) (k : TableKey) : TableState → List TableOp → TableState → Prop
  | s, [], s' => s' = s
  | s, op :: ops, s' => Legal env s op ∧ ∃ next, tableStep env s op = some next ∧
      next.table.handleEpoch = s.table.handleEpoch ∧ contains (contents next.memory.units next.table) k = true ∧
      Undisturbed env k next ops s'

theorem undisturbed_keeps (ops : List TableOp) : ∀ {s : TableState}, TableInv env s.memory s.table →
    HasRow s.memory.units s.table k i → Undisturbed env k s ops s' →
    TableInv env s'.memory s'.table ∧ HasRow s'.memory.units s'.table k i ∧ s'.table.handleEpoch = s.table.handleEpoch := by
  induction ops with
  | nil =>
    rintro s hI h rfl
    exact ⟨hI, h, rfl⟩
  | cons op ops ih =>
    rintro s hI h ⟨hlegal, next, hstep, hepoch, hk, hrest⟩
    have hnext := tableStep_spec ⟨hI, rfl⟩ hlegal
    rw [hstep] at hnext
    obtain ⟨hI', h', hepoch'⟩ := ih hnext.1.inv (hnext.2 hepoch k i h hk) hrest
    exact ⟨hI', h', hepoch'.trans hepoch⟩

/-- a handle that an operation has returned for a key, with the state it left -/
inductive Returned (env : TableEnv) (s : TableState) (k : TableKey) (i : ℕ) : TableState → Prop where
  | lookup {key : MalKey} {memory' : StringMemory} (hk : key.den s.memory.units = some k)
      (h : tableLookup env s.memory s.table key = some (memory', some i)) : Returned env s k i ⟨memory', s.table⟩
  | upsert {key : MalKey} {memory' : StringMemory} {table' : MalTable} {inserted : Bool}
      (hk : key.den s.memory.units = some k)
      (h : tableUpsertEntry env s.memory s.table key = some (memory', table', i, inserted)) :
      Returned env s k i ⟨memory', table'⟩
  | iterator {key : MalKey} (hk : key.den s.memory.units = some k)
      (h : (key, i) ∈ iterate s.table (s.table.entryCount + 1) 0) : Returned env s k i s

theorem hasRow_of_answers {found : ℕ} (h : Answers units table k (some found)) : HasRow units table k found := by
  obtain ⟨entry, he, hp⟩ := map_eq_some_iff.1 h.2
  exact ⟨h.1, entry, he, congrArg Prod.fst hp⟩

theorem Returned.hasRow (hI : TableInv env s.memory s.table) (h : Returned env s k i s') :
    TableInv env s'.memory s'.table ∧ HasRow s'.memory.units s'.table k i := by
  cases h with
  | lookup hk h =>
    obtain ⟨m, found, hl, hc, hans⟩ := tableLookup_spec hI hk
    rw [h] at hl
    cases hl
    exact ⟨hI.mono hc, hc.units ▸ hasRow_of_answers hans⟩
  | upsert hk h =>
    rcases tableUpsertEntry_spec hI hk with ⟨hup, -⟩ | ⟨m, t, entry, inserted, hup, hc, hI', -, hans, -⟩
    · rw [h] at hup
      cases hup
    rw [h] at hup
    cases hup
    exact ⟨hI', hc.units ▸ hasRow_of_answers hans⟩
  | iterator hk h =>
    rw [iterate_eq] at h
    obtain ⟨j, hj, hr⟩ := mem_entries.1 h
    obtain ⟨entry, he, hp⟩ := map_eq_some_iff.1 hr
    cases hp
    obtain ⟨henc, -, hrow⟩ := encode_stored hI.toTableRowInv hj he
    have hden := (encodeKey_spec s.memory.units (decodeKey entry.key)).1
    rw [henc, hk, map_some, some.injEq] at hden
    exact ⟨hI, hden ▸ hrow⟩

/-- **Cached handles are never wrong.** A match is what a lookup returns; a handle returned for a key matches until the key
is deleted or the epoch moves on; a hint read with any handle misses or reads the entry of the key. -/
theorem handles_sound (env : TableEnv) (memory : StringMemory) (hm : MemoryOk env.contentHash memory) (ops : List TableOp)
    (hlegal : LegalRun env ⟨memory, tableNew env⟩ ops) {s : TableState} {l : List (TableKey × RowData)}
    (hrun : tableRun env ⟨memory, tableNew env⟩ [] ops = .finished s l) :
    (∀ entry epoch key memory', entryMatches s.table entry env s.memory epoch key = some (memory', true) →
      entryIsLive s.table entry = true ∧ ∃ i, entry = some i ∧ Finds env s.memory s.table key i) ∧
    (∀ k i returned later s' key, Returned env s k i returned → Undisturbed env k returned later s' →
      key.den s'.memory.units = some k →
      ∃ memory', entryMatches s'.table (some i) env s'.memory returned.table.handleEpoch key = some (memory', true)) ∧
    (∀ entry key read, readEntryHint s.table entry key = some (some read) ∨ namedHintRead s.table entry key = some read →
      Reads env s.memory s.table (keyFromValue key) read) ∧
    (∀ entry symbol value, valueIsSymbol symbol = true → privateHintRead s.table entry symbol = some value →
      ∃ i, Finds env s.memory s.table ⟨.symbol, symbol⟩ i ∧ value = (s.table.entries i).payload) := by
  have htracks := tableRun_spec ops (tracks_new env hm) hlegal
  rw [hrun] at htracks
  have hI : TableInv env s.memory s.table := htracks.inv
  refine ⟨fun entry epoch key memory' h => ?_, fun k i returned later s' key hret hlater hk => ?_, fun entry key read h => ?_,
    fun entry symbol value hs h => privateHintRead_finds hI hs h⟩
  · cases hq : encodeKey key with
    | none =>
      rw [entryMatches, hq] at h
      split at h
      · cases h
      · split_ifs at h <;> cases h
    | some q =>
      obtain ⟨m, answer, hm, hiff⟩ := entryMatches_iff hI hq entry epoch
      rw [h] at hm
      cases hm
      obtain ⟨-, i, rfl, hrow⟩ := hiff.1 rfl
      obtain ⟨hi, row, he, -⟩ := id hrow
      refine ⟨?_, i, rfl, finds_of_rowAt hI hq hrow⟩
      rw [entryIsLive, handleRow_eq_some.2 ⟨i, rfl, hi, rfl⟩]
      exact (entryRow_eq_some.1 he).1
  · obtain ⟨hI', hrow⟩ := hret.hasRow hI
    obtain ⟨hI', hrow, hepoch⟩ := undisturbed_keeps later hI' hrow hlater
    have hden := (encodeKey_spec s'.memory.units key).1
    rw [hk] at hden
    obtain ⟨q, hq, rfl⟩ := map_eq_some_iff.1 hden
    obtain ⟨memory', answer, h, hiff⟩ := entryMatches_iff hI' hq (some i) returned.table.handleEpoch
    rw [hiff.2 ⟨hepoch.symm, i, rfl, hrow⟩] at h
    exact ⟨memory', h⟩
  · rcases h with h | h
    · exact readEntryHint_reads hI h
    · exact namedHintRead_reads hI h

/-- a string with the text of the first key matches its handle, also after another key came in; hints read the string's
value, the index's and the symbol's -/
theorem handles_sound_sample :
    Finds sampleEnv sampleState.memory sampleState.table ⟨.string, 0xFFFA000000000040#64⟩ 0 ∧
    (∃ s' memory', tableStep sampleEnv sampleState (.upsert ⟨.index, 0xFFF8000000000009#64⟩) = some s' ∧
      entryMatches s'.table (some 0) sampleEnv s'.memory sampleState.table.handleEpoch ⟨.string, 0xFFFA000000000040#64⟩ =
        some (memory', true)) ∧
    Reads sampleEnv sampleState.memory sampleState.table (keyFromValue 0xFFFA000000000010#64) (0xFFFA000000000010#64, 7) ∧
    Reads sampleEnv sampleState.memory sampleState.table (keyFromValue 0xFFF8000000000003#64) (0xFFFA000000000030#64, 0) ∧
    ∃ i, Finds sampleEnv sampleState.memory sampleState.table ⟨.symbol, 0xFFFB000000000010#64⟩ i ∧
      valueUndefined = (sampleState.table.entries i).payload := by
  obtain ⟨l, hrun, -⟩ := sampleState_tracks
  obtain ⟨hmatch, hkeeps, hreads, hprivate⟩ := handles_sound sampleEnv sampleMemory nofun sampleOps sampleOps_legal hrun
  refine ⟨?_, ?_, hreads (some 0) _ _ (.inr rfl), hreads (some 2) _ _ (.inl rfl), hprivate (some 1) _ _ rfl rfl⟩
  · obtain ⟨-, i, hi, hfinds⟩ := hmatch (some 0) sampleState.table.handleEpoch ⟨.string, 0xFFFA000000000040#64⟩ _ rfl
    cases hi
    exact hfinds
  · have hfirst : (⟨.string, 0xFFFA000000000010#64⟩, 0) ∈ iterate sampleState.table (sampleState.table.entryCount + 1) 0 :=
      List.mem_cons_self
    have hlater : Undisturbed sampleEnv (.string [97]) sampleState [.upsert ⟨.index, 0xFFF8000000000009#64⟩] _ :=
      ⟨rfl, _, rfl, rfl, rfl, rfl⟩
    obtain ⟨memory', h⟩ := hkeeps (.string [97]) 0 sampleState _ _ ⟨.string, 0xFFFA000000000040#64⟩ (.iterator rfl hfirst)
      hlater rfl
    exact ⟨_, memory', rfl, h⟩

end Maligator.Table
