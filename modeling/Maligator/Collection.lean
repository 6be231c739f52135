/-
What Map and Set storage have in common.

`Store` is a storage whatever the layout of its rows: rows of a key and a value, tombstones between them, an index over the
rows of a spilled storage, and the counters beside them. `Inv` says that keys are canonical, unique and in the storage's
domain, and that the index of a spilled storage holds exactly the live rows. A layout shows what its functions do to the
`Store`; that the invariant and the data follow is proved here once.

`Effect` says what an operation does to the data; compaction does nothing to it while pins are held.
-/
import Maligator.KeyRows

namespace Maligator.Collection

open HashIndex Function Option Rows LiveList KeyRows

structure Store (V : Type) where
  row : ℕ → Option (MalValue × V)
  inline : Prop
  index : MalHashIndex ℕ
  size : ℕ
  count : ℕ
  capacity : ℕ
  deletedSlots : ℕ
  pins : ℕ
  reserveSize : ℕ
  domain : MalKeyDomain
  ownerReleased : Bool

namespace Store

variable {V : Type}

section

variable (env : KeyEnv) (T : Store V)

def keys (i : ℕ) : Option MalValue := (T.row i).map Prod.fst

def entry (i : ℕ) : Option (CollectionKey × V) := (T.row i).map fun p => (env.den p.1, p.2)

def data : List (Option (CollectionKey × V)) := places (T.entry env) T.count

def contents : List (CollectionKey × V) := entries (T.entry env) T.count

def Indexed (k : ℕ) : Prop :=
  Holds k (rowHash env T.keys) T.index T.deletedSlots (livePositions T.keys T.count)

/-- the rows are well formed, whatever the index holds -/
structure RowsInv : Prop where
  rows : RowsOk env T.domain T.keys T.count
  size : T.size = (livePositions T.keys T.count).card
  sizeLe : T.size ≤ memberLimit
  countLe : T.count ≤ T.capacity
  capPos : 0 < T.capacity
  capLt : T.capacity < 2 ^ 31
  typed : ¬ T.inline → T.domain ≠ .empty
  owned : T.ownerReleased = false

/-- **Storage invariant.** -/
structure Inv : Prop extends RowsInv env T where
  small : T.inline → T.capacity = 4 ∧ T.index.capacity = 0 ∧ T.deletedSlots = 0
  hashed : ¬ T.inline → ∃ k, T.Indexed env k

abbrev Lacks (key : MalValue) : Prop := Absent env T.keys T.count key

abbrev HasAt (key : MalValue) (i : ℕ) : Prop := RowOf env T.keys T.count key i

abbrev Answers (key : MalValue) (found : Option ℕ) : Prop := BucketAnswers env T.keys T.count T.index key found

theorem live_data : live (T.data env) = T.contents env := live_places _ _

theorem contents_eq_map : T.contents env = (entries T.row T.count).map fun p => (env.den p.1, p.2) :=
  entries_map _ T.row T.count

theorem keys_contents : (T.contents env).map Prod.fst = (members env T.keys T.count).map Prod.fst := by
  have hkeys : entries T.keys T.count = (entries T.row T.count).map Prod.fst := entries_map _ T.row T.count
  rw [contents_eq_map, members_eq_map, hkeys, List.map_map, List.map_map, List.map_map]
  rfl

theorem contains_contents (k : CollectionKey) :
    contains (T.contents env) k = contains (members env T.keys T.count) k := by
  rw [Bool.eq_iff_iff, contains_iff, contains_iff, keys_contents]

theorem length_contents : (T.contents env).length = (livePositions T.keys T.count).card := by
  rw [← List.length_map, keys_contents, List.length_map, length_members]

end

variable {env : KeyEnv} {T T' : Store V} {key : MalValue} {value : V} {i : ℕ}
  {change : List (Option (CollectionKey × V)) → List (Option (CollectionKey × V))}

theorem RowsInv.nodup (h : T.RowsInv env) : ((T.contents env).map Prod.fst).Nodup := by
  rw [keys_contents]
  exact h.rows.nodup

theorem RowsInv.length (h : T.RowsInv env) : (T.contents env).length = T.size := by
  rw [Store.length_contents, h.size]

theorem contains_of_absent (h : T.Lacks env key) : contains (T.contents env) (env.den key) = false := by
  rw [contains_contents, h.contains]

theorem contains_of_rowOf (h : T.HasAt env key i) : contains (T.contents env) (env.den key) = true := by
  rw [contains_contents, h.contains]

theorem exists_row (h : T.HasAt env key i) : ∃ v, T.entry env i = some (env.den key, v) := by
  obtain ⟨-, k, hk, hd⟩ := h
  obtain ⟨⟨k', v⟩, hrow, rfl⟩ := map_eq_some_iff.1 hk
  exact ⟨v, by rw [entry, hrow, ← hd]; rfl⟩

theorem keys_update (T : Store V) (i : ℕ) (r : Option (MalValue × V)) :
    ({ T with row := update T.row i r } : Store V).keys = update T.keys i (r.map Prod.fst) := by
  funext j
  by_cases hj : j = i
  · subst hj
    simp [keys]
  · simp [keys, hj]

theorem entry_update (env : KeyEnv) (T : Store V) (i : ℕ) (r : Option (MalValue × V)) :
    ({ T with row := update T.row i r } : Store V).entry env =
      update (T.entry env) i (r.map fun p => (env.den p.1, p.2)) := by
  funext j
  by_cases hj : j = i
  · subst hj
    simp [entry]
  · simp [entry, hj]

/-! ## Searches -/

def QueryAnswers (env : KeyEnv) (T : Store V) (key : MalValue) : Option (BitVec 32) → Prop
  | none => T.Lacks env key
  | some intKey => Fits T.domain key ∧ (T.domain = .int32 → intKey = valueF64ToI32 key)

theorem RowsInv.query_int32 (hI : T.RowsInv env) (hd : T.domain = .int32) (key : MalValue) :
    T.QueryAnswers env key (int32Query key) := by
  cases hq : int32Query key with
  | none =>
    refine hI.rows.absent fun hf => ?_
    rw [int32Query_of_fits (hd ▸ hf)] at hq
    cases hq
  | some n =>
    obtain ⟨hf, hn⟩ := fits_of_int32Query hq
    exact ⟨hd ▸ hf, fun _ => hn⟩

theorem RowsInv.query (hI : T.RowsInv env) (hd : T.domain ≠ .int32) {fits : Bool} (h : Fits T.domain key ↔ fits = true) :
    T.QueryAnswers env key (if fits = true then some 0 else none) := by
  split_ifs with hf
  · exact ⟨h.2 hf, fun h => absurd h hd⟩
  · exact hI.rows.absent fun h' => hf (h.1 h')

theorem QueryAnswers.lookup {query : Option (BitVec 32)} (h : T.QueryAnswers env key query)
    (probe : BitVec 32 → Option (Option ℕ)) (hprobe : ∀ intKey, Fits T.domain key →
      (T.domain = .int32 → intKey = valueF64ToI32 key) → ∃ found, probe intKey = some found ∧ T.Answers env key found) :
    ∃ found, query.elim (some none) probe = some found ∧ T.Answers env key found := by
  cases query with
  | none => exact ⟨none, rfl, h⟩
  | some intKey => exact hprobe intKey h.1 h.2

variable {found known : Option ℕ} {capacity k b minimum n : ℕ} {index : MalHashIndex ℕ}
  {U : Store V}

theorem contains_of_bucket (h : T.Answers env key found) : contains (T.contents env) (env.den key) = found.isSome := by
  cases found with
  | none => exact contains_of_absent h
  | some b => exact contains_of_rowOf h.2.2

/-! ## The same rows in another layout -/

def Agree (T T' : Store V) : Prop := ∃ r, (∀ i < T.count, r i = T.row i) ∧ T' = { T with row := r }

section Agree

variable (h : Agree T T')
include h

theorem Agree.keys : ∀ i < T.count, T'.keys i = T.keys i := by
  obtain ⟨r, hr, rfl⟩ := h
  exact fun i hi => congrArg (Option.map _) (hr i hi)

theorem Agree.contents : T'.contents env = T.contents env := by
  obtain ⟨r, hr, rfl⟩ := h
  exact entries_congr fun i hi => congrArg (Option.map _) (hr i hi)

theorem Agree.data : T'.data env = T.data env := by
  obtain ⟨r, hr, rfl⟩ := h
  exact places_congr fun i hi => congrArg (Option.map _) (hr i hi)

theorem Agree.rowsInv (hI : T.RowsInv env) : T'.RowsInv env := by
  have hkeys := h.keys
  obtain ⟨r, hr, rfl⟩ := h
  exact { hI with
    rows := hI.rows.congr hkeys
    size := hI.size.trans (congrArg _ (livePositions_congr hkeys).symm) }

theorem Agree.indexed (hk : T.Indexed env k) : T'.Indexed env k := by
  have hkeys := h.keys
  obtain ⟨r, hr, rfl⟩ := h
  exact holds_congr hk hkeys

theorem Agree.inv (hI : T.Inv env) : T'.Inv env := by
  refine ⟨h.rowsInv hI.toRowsInv, ?_, fun hp => ?_⟩
  · obtain ⟨r, hr, rfl⟩ := h
    exact hI.small
  · obtain ⟨k, hk⟩ := hI.hashed (by obtain ⟨r, hr, rfl⟩ := h; exact hp)
    exact ⟨k, h.indexed hk⟩

end Agree

theorem RowsInv.resize (hI : T.RowsInv env) {inline : Prop} {domain : MalKeyDomain}
    (hcap : T.count ≤ capacity ∧ 0 < capacity ∧ capacity < 2 ^ 31) (htyped : ¬ inline → domain ≠ .empty)
    (hfit : ∀ i < T.count, ∀ k, T.keys i = some k → Fits domain k) :
    ({ T with inline := inline, capacity := capacity, domain := domain } : Store V).RowsInv env :=
  { hI with
    rows := hI.rows.widen hfit
    countLe := hcap.1
    capPos := hcap.2.1
    capLt := hcap.2.2
    typed := htyped }

theorem Inv.resize (hI : T.Inv env) (hp : ¬ T.inline) (hcap : T.count ≤ capacity ∧ 0 < capacity ∧ capacity < 2 ^ 31) :
    ({ T with inline := False, capacity := capacity } : Store V).Inv env :=
  ⟨hI.toRowsInv.resize hcap (fun _ => hI.typed hp) fun i hi k hk => (hI.rows.keyOk i hi k hk).2, False.elim,
    fun _ => hI.hashed hp⟩

theorem RowsInv.demote (hI : T.RowsInv env) (hc : T.count ≤ 4)
    (hindex : index.capacity = 0) (reserveSize : ℕ) : ({ T with
      inline := True, index := index, capacity := 4, deletedSlots := 0, reserveSize := reserveSize,
      domain := if T.count = 0 then .empty else T.domain } : Store V).Inv env := by
  have hfit : ∀ i < T.count, ∀ k, T.keys i = some k → Fits (if T.count = 0 then .empty else T.domain) k := by
    intro i hi k hk
    rw [if_neg (by omega)]
    exact (hI.rows.keyOk i hi k hk).2
  have hrows := hI.resize ⟨hc, Nat.succ_pos 3, by norm_num⟩ (fun h => absurd trivial h) hfit
  exact ⟨{ hrows with }, fun _ => ⟨rfl, hindex, rfl⟩, fun h => absurd trivial h⟩

theorem RowsInv.reindex (hI : T.RowsInv env) (hp : ¬ T.inline)
    (hk : ({ T with index := index, deletedSlots := 0 } : Store V).Indexed env k) :
    ({ T with index := index, deletedSlots := 0 } : Store V).Inv env :=
  ⟨{ hI with }, fun h => absurd h hp, fun _ => ⟨k, hk⟩⟩

theorem Inv.counters (hI : T.Inv env) (pins reserveSize : ℕ) :
    ({ T with pins := pins, reserveSize := reserveSize } : Store V).Inv env :=
  { hI with }

/-! ## Effects -/

/-- The contents become those of the changed data. While pins are held the data itself changes that way: no position
moves. -/
structure Effect (env : KeyEnv) (T T' : Store V)
    (change : List (Option (CollectionKey × V)) → List (Option (CollectionKey × V))) : Prop where
  contents : T'.contents env = live (change (T.data env))
  data : T.pins ≠ 0 → T'.data env = change (T.data env)
  pins : T'.pins = T.pins

theorem Effect.of_data (h : T'.data env = change (T.data env)) (hp : T'.pins = T.pins) : Effect env T T' change :=
  ⟨by rw [← live_data, h], fun _ => h, hp⟩

theorem Effect.refl (env : KeyEnv) (T : Store V) : Effect env T T id := of_data rfl rfl

structure Compacted (env : KeyEnv) (T T' : Store V) : Prop where
  contents : T'.contents env = T.contents env
  pins : T'.pins = T.pins
  size : T'.size = T.size
  count : T'.count ≤ T.count
  reserveSize : T'.reserveSize ≤ T.reserveSize
  pinned : T.pins ≠ 0 → T' = T

theorem Compacted.refl (env : KeyEnv) (T : Store V) : Compacted env T T := ⟨rfl, rfl, rfl, le_rfl, le_rfl, fun _ => rfl⟩

theorem Compacted.trans (h : Compacted env T T') (h' : Compacted env T' U) : Compacted env T U where
  contents := h'.contents.trans h.contents
  pins := h'.pins.trans h.pins
  size := h'.size.trans h.size
  count := h'.count.trans h.count
  reserveSize := h'.reserveSize.trans h.reserveSize
  pinned hp := (h'.pinned (h.pins ▸ hp)).trans (h.pinned hp)

/-- **Compaction** has no effect on the contents, and does nothing while pins are held. -/
theorem Compacted.effect (h : Compacted env T T') : Effect env T T' id :=
  ⟨h.contents.trans (live_data env T).symm, fun hp => by rw [h.pinned hp]; rfl, h.pins⟩

theorem Compacted.room (h : Compacted env T T') (hmembers : max T.reserveSize (T.size + 1) ≤ memberLimit)
    (hrows : T.count + max 1 (T.reserveSize - T.size) ≤ 2 ^ 30) :
    max T'.reserveSize (T'.size + 1) ≤ memberLimit ∧ T'.count + max 1 (T'.reserveSize - T'.size) ≤ 2 ^ 30 := by
  have hsize := h.size
  have hcount := h.count
  have hres := h.reserveSize
  omega

theorem Effect.compacted (h : Effect env T T' change) (h' : Effect env T' U id) : Effect env T U change := by
  refine ⟨?_, fun hp => ?_, h'.pins.trans h.pins⟩
  · rw [h'.contents, id, live_data, h.contents]
  · rw [h'.data (h.pins ▸ hp), id, h.data hp]

theorem RowsInv.live_write (hI : T.RowsInv env) (k : CollectionKey) (v : V) :
    live (write (T.data env) k v) = Rows.insert (T.contents env) k v := by
  rw [LiveList.live_write (by rw [live_data]; exact hI.nodup), live_data]

theorem Compacted.write {k : CollectionKey} (h : Compacted env T U) (hI : T.RowsInv env)
    (hIU : U.RowsInv env) (hdata : T'.data env = write (U.data env) k value) (hp : T'.pins = U.pins) :
    Effect env T T' (write · k value) := by
  refine ⟨?_, fun hpin => ?_, hp.trans h.pins⟩
  · rw [← live_data, hdata, hIU.live_write, hI.live_write, h.contents]
  · rw [hdata, h.pinned hpin]

/-! ## Insertion -/

def append (T : Store V) (key : MalValue) (value : V) : Store V :=
  { T with row := update T.row T.count (some (key, value)), count := T.count + 1, size := T.size + 1 }

theorem append_rows (T : Store V) (key : MalValue) (value : V) : ∀ i < T.count, (T.append key value).row i = T.row i :=
  fun _ hi => update_of_ne hi.ne _ _

theorem append_row (T : Store V) (key : MalValue) (value : V) : (T.append key value).row T.count = some (key, value) :=
  update_self _ _ _

theorem append_keys (T : Store V) (key : MalValue) (value : V) :
    (∀ i < T.count, (T.append key value).keys i = T.keys i) ∧ (T.append key value).keys T.count = some key :=
  ⟨fun i hi => congrArg (Option.map _) (append_rows T key value i hi), congrArg (Option.map _) (append_row T key value)⟩

theorem data_append (habs : T.Lacks env key) (value : V) :
    (T.append key value).data env = write (T.data env) (env.den key) value := by
  have hcont := contains_of_absent habs
  have hrow : (T.append key value).entry env T.count = some (env.den key, value) :=
    congrArg (Option.map _) (append_row T key value)
  have hrows : places ((T.append key value).entry env) T.count = places (T.entry env) T.count :=
    places_congr fun i hi => congrArg _ (append_rows T key value i hi)
  rw [data, data, write_of_absent hcont, ← hrow, ← hrows]
  exact places_succ _ _

theorem RowsInv.append (hI : T.RowsInv env) (hc : Canonical key) (habs : T.Lacks env key)
    (hlimit : T.size + 1 ≤ memberLimit) (hroom : T.count < T.capacity) (hfit : Fits T.domain key) (value : V) :
    (T.append key value).RowsInv env := by
  obtain ⟨hkeys, hkey⟩ := append_keys T key value
  refine ⟨hI.rows.append hc hfit habs hkeys hkey, ?_, hlimit, hroom, hI.capPos, hI.capLt, hI.typed, hI.owned⟩
  change T.size + 1 = (livePositions _ (T.count + 1)).card
  rw [livePositions_append hkeys (by rw [hkey]; rfl), Finset.card_insert_of_notMem, ← hI.size]
  exact fun h => lt_irrefl _ (mem_livePositions.1 h).1

def KnownVacant (env : KeyEnv) (T : Store V) (key : MalValue) (known : Option ℕ) : Prop :=
  ∀ b, known = some b → ¬ T.inline ∧ ∃ k, T.Indexed env k ∧ Holds.Vacant k T.index (keyHashValue env key) b

/-- the index has room for one more bucket, and the known one is vacant -/
structure Ready (env : KeyEnv) (T : Store V) (key : MalValue) (known : Option ℕ) (k : ℕ) : Prop where
  indexed : T.Indexed env k
  vacant : ∀ b, known = some b → Holds.Vacant k T.index (keyHashValue env key) b
  fits : hashIndexFits (T.size + 1 + (T.deletedSlots - (known.any fun b => T.index.controls b == hashDeleted).toNat))
    (16 * 2 ^ k) = true

theorem ready_of_fits {members : ℕ} (hmembers : T.size + 1 ≤ members) (hk : T.Indexed env k)
    (hvac : ∀ b, known = some b → Holds.Vacant k T.index (keyHashValue env key) b)
    (hfits : hashIndexFits (members + T.deletedSlots - (known.any fun b => T.index.controls b == hashDeleted).toNat)
      T.index.capacity = true) : T.Ready env key known k := by
  refine ⟨hk, hvac, ?_⟩
  have hle := hk.reused_le hvac
  rw [hk.cap] at hfits
  exact hashIndexFits_mono (by omega) hfits

theorem ready_of_rebuilt {members : ℕ} (hmembers : T.size + 1 ≤ members)
    (hk : T.Indexed env k) (hdel : T.deletedSlots = 0) (hfits : hashIndexFits members (16 * 2 ^ k) = true) :
    T.Ready env key none k := by
  refine ⟨hk, by simp, ?_⟩
  simp only [hashIndexFits, decide_eq_true_eq] at hfits ⊢
  omega

def Finds (env : KeyEnv) (T : Store V) (key : MalValue) (k b : ℕ) : Prop :=
  (T.index.controls b < hashEmpty ∧ T.HasAt env key (T.index.slots b)) ∨
    (Holds.Vacant k T.index (keyHashValue env key) b ∧ T.Lacks env key)

theorem Ready.slot (h : T.Ready env key known k) (habs : T.Lacks env key)
    (hfound : ∃ b, found = some b ∧ T.Finds env key k b) :
    ∃ b, known.or found = some b ∧ T.Ready env key (some b) k := by
  cases known with
  | some b => exact ⟨b, rfl, h⟩
  | none =>
    obtain ⟨b, hb, hout⟩ := hfound
    refine ⟨b, hb, h.indexed, fun b' hb' => ?_, ?_⟩
    · rcases hout with ⟨-, hlt, c, hrow, hd⟩ | ⟨hvac, -⟩
      · exact absurd hd (habs _ hlt c hrow)
      · exact some.inj hb' ▸ hvac
    · have hfits := h.fits
      simp only [hashIndexFits, decide_eq_true_eq, any_none, Bool.toNat_false] at hfits ⊢
      omega

/-- **Append** of a row and its bucket. -/
theorem Ready.append (h : T.Ready env key (some b) k) (hI : T.RowsInv env) (hp : ¬ T.inline)
    (hroom : T.count < T.capacity) (hlimit : T.size + 1 ≤ memberLimit) (hc : Canonical key) (hfit : Fits T.domain key)
    (habs : T.Lacks env key) (value : V) : ({ T.append key value with
      index := hashIndexInsert T.index b T.count (keyHashValue env key)
      deletedSlots := T.deletedSlots - (T.index.controls b == hashDeleted).toNat
      reserveSize := 0 } : Store V).Inv env := by
  have hA := hI.append hc habs hlimit hroom hfit value
  obtain ⟨hkeys, hkey⟩ := append_keys T key value
  exact ⟨{ hA with }, fun h => absurd h hp, fun _ =>
    ⟨k, holds_append h.indexed hkeys hkey (h.vacant b rfl) (by rw [← hI.size]; exact h.fits)⟩⟩

def Grown (T : Store V) (key : MalValue) (T' : Store V) : Prop :=
  ∃ capacity, T.count < capacity ∧ capacity < 2 ^ 31 ∧ Agree { T with
    inline := False, capacity := capacity, domain := joinDomain T.domain (insertDomain T.domain key) } T'

/-- what growth of the payload and of the index leaves in place -/
structure Prepared (env : KeyEnv) (T : Store V) (key : MalValue) (T' : Store V) : Prop where
  inv : T'.RowsInv env
  spilled : ¬ T'.inline
  rows : ∀ i < T.count, T'.row i = T.row i
  count : T'.count = T.count
  size : T'.size = T.size
  pins : T'.pins = T.pins
  room : T'.count < T'.capacity
  fits : Fits T'.domain key

structure Appended (env : KeyEnv) (T : Store V) (key : MalValue) (value : V) (T' : Store V) : Prop where
  inv : T'.Inv env
  rows : ∀ i < T.count, T'.row i = T.row i
  row : T'.row T.count = some (key, value)
  count : T'.count = T.count + 1
  pins : T'.pins = T.pins

theorem Appended.data (h : T.Appended env key value T') (habs : T.Lacks env key) :
    T'.data env = write (T.data env) (env.den key) value := by
  rw [← data_append habs, Store.data, h.count]
  refine places_congr fun i hi => ?_
  rcases Nat.lt_or_eq_of_le (Nat.lt_succ_iff.1 hi) with hlt | rfl
  · exact congrArg (Option.map _) ((h.rows i hlt).trans (append_rows T key value i hlt).symm)
  · exact congrArg (Option.map _) (h.row.trans (append_row T key value).symm)

section Prepared

theorem Grown.prepared (h : T.Grown key T') (hI : T.Inv env) (hmembers : max T.reserveSize (T.size + 1) ≤ memberLimit)
    (hknown : T.KnownVacant env key known) :
    T.Prepared env key T' ∧ max T'.reserveSize (T'.size + 1) ≤ memberLimit ∧ (T'.index.capacity ≠ 0 →
      ∃ k, T'.Indexed env k ∧ ∀ b, known = some b → Holds.Vacant k T'.index (keyHashValue env key) b) := by
  obtain ⟨capacity, hlt, hcap, hagree⟩ := h
  have hne := joinDomain_ne_empty T.domain (insertDomain_ne_empty T.domain key)
  have hrows := hagree.rowsInv (hI.toRowsInv.resize ⟨hlt.le, Nat.zero_lt_of_lt hlt, hcap⟩ (fun _ => hne) fun i hi k hk =>
    fits_join (hI.rows.keyOk i hi k hk).2 (insertDomain_ne_empty _ _))
  have hindexed : ∀ k, T.Indexed env k → T'.Indexed env k := fun k hk => hagree.indexed hk
  obtain ⟨r, hr, rfl⟩ := hagree
  refine ⟨⟨hrows, not_false, hr, rfl, rfl, rfl, hlt, fits_join_insertDomain _ _⟩, hmembers, fun hcap => ?_⟩
  obtain ⟨k, hk⟩ := hI.hashed fun hp => hcap (hI.small hp).2.1
  refine ⟨k, hindexed k hk, fun b hb => ?_⟩
  obtain ⟨-, k', hk', hvac⟩ := hknown b hb
  exact hk.level_unique hk' ▸ hvac

variable (h : T.Prepared env key T')
include h

theorem Prepared.reindex (index : MalHashIndex ℕ) (deletedSlots : ℕ) :
    T.Prepared env key { T' with index := index, deletedSlots := deletedSlots } :=
  { h with inv := { h.inv with } }

theorem Prepared.lacks (habs : T.Lacks env key) : T'.Lacks env key := by
  rw [Lacks, h.count]
  exact habs.congr fun i hi => congrArg (Option.map _) (h.rows i hi)

theorem Prepared.append (hready : T'.Ready env key (some b) k) (hlimit : T.size + 1 ≤ memberLimit)
    (hc : Canonical key) (habs : T.Lacks env key) (value : V) : T.Appended env key value { T'.append key value with
      index := hashIndexInsert T'.index b T'.count (keyHashValue env key)
      deletedSlots := T'.deletedSlots - (T'.index.controls b == hashDeleted).toNat
      reserveSize := 0 } where
  inv := hready.append h.inv h.spilled h.room (h.size ▸ hlimit) hc h.fits (h.lacks habs) value
  rows i hi := (append_rows T' key value i (h.count ▸ hi)).trans (h.rows i hi)
  row := h.count ▸ append_row T' key value
  count := congrArg (· + 1) h.count
  pins := h.pins

end Prepared

/-- **Append** to the inline rows. -/
theorem Inv.append_inline (hI : T.Inv env) (hp : T.inline) (hroom : T.count < 4) (hlimit : T.size + 1 ≤ memberLimit)
    (hc : Canonical key) (habs : T.Lacks env key) (value : V) : T.Appended env key value
      (({ T with domain := joinDomain T.domain (insertDomain T.domain key) } : Store V).append key value) := by
  have hrows : ({ T with domain := joinDomain T.domain (insertDomain T.domain key) } : Store V).RowsInv env :=
    hI.toRowsInv.resize ⟨hI.countLe, hI.capPos, hI.capLt⟩ (fun h => absurd hp h)
      fun i hi k hk => fits_join (hI.rows.keyOk i hi k hk).2 (insertDomain_ne_empty _ key)
  have hroom' : T.count < T.capacity := hroom.trans_eq (hI.small hp).1.symm
  have happ := hrows.append hc habs hlimit hroom' (fits_join_insertDomain _ key) value
  exact ⟨⟨happ, fun _ => hI.small hp, fun h => absurd hp h⟩, append_rows T key value, append_row T key value, rfl, rfl⟩

theorem RowsInv.growCapacity (hI : T.RowsInv env) (hrows : T.count + max 1 (T.reserveSize - T.size) ≤ 2 ^ 30)
    (hmin : 0 < minimum ∧ minimum < 2 ^ 31) (inline : Bool) :
    ∃ c, collectionCapacity (T.count + 1 + (if T.reserveSize > T.size then T.reserveSize - T.size - 1 else 0))
      (if inline then minimum else T.capacity) = some c ∧ T.count < c ∧ c < 2 ^ 31 := by
  have hdesired : T.count + 1 + (if T.reserveSize > T.size then T.reserveSize - T.size - 1 else 0) ≤ 2 ^ 30 := by
    split_ifs <;> omega
  obtain ⟨c, hc, hge, -, hlt⟩ := collectionCapacity_spec _ (if inline then minimum else T.capacity) hdesired
    (by split_ifs; exacts [hmin.1, hI.capPos]) (by split_ifs; exacts [hmin.2, hI.capLt])
  exact ⟨c, hc, by omega, hlt⟩

/-! ## Rewriting, removal and clear -/

def erase (T : Store V) (i : ℕ) : Store V := { T with row := update T.row i none, size := T.size - 1 }

section Row

variable (hrow : T.HasAt env key i)
include hrow

theorem RowsInv.erase (hI : T.RowsInv env) : (T.erase i).RowsInv env := by
  have hkeys : (T.erase i).keys = update T.keys i none := keys_update T i none
  refine ⟨?_, ?_, (Nat.sub_le _ _).trans hI.sizeLe, hI.countLe, hI.capPos, hI.capLt, hI.typed, hI.owned⟩
  · rw [hkeys]
    exact hI.rows.erase hrow
  · rw [hkeys]
    change T.size - 1 = (livePositions _ T.count).card
    rw [livePositions_update_none, Finset.card_erase_of_mem hrow.mem, hI.size]

theorem data_erase (hI : T.RowsInv env) : (T.erase i).data env = remove (T.data env) (env.den key) := by
  obtain ⟨v, hv⟩ := exists_row hrow
  rw [data, data, remove_of_row hI.nodup hrow.1 hv]
  exact congrArg (places · T.count) (entry_update env T i none)

/-- **Removal** of an inline row. -/
theorem Inv.erase (hI : T.Inv env) (hp : T.inline) :
    (T.erase i).Inv env ∧ Effect env T (T.erase i) (remove · (env.den key)) :=
  ⟨⟨hI.toRowsInv.erase hrow, hI.small, fun h => absurd hp h⟩, .of_data (data_erase hrow hI.toRowsInv) rfl⟩

/-- **Rewriting** a row: an equal key and another value. -/
theorem Inv.rewrite (hI : T.Inv env) {key' : MalValue} (hc : Canonical key') (hd : env.den key' = env.den key) (value : V) :
    ({ T with row := update T.row i (some (key', value)) } : Store V).Inv env ∧
      ({ T with row := update T.row i (some (key', value)) } : Store V).data env =
        write (T.data env) (env.den key) value := by
  have hkeys := keys_update T i (some (key', value))
  have hentry := entry_update env T i (some (key', value))
  obtain ⟨v, hv⟩ := exists_row hrow
  obtain ⟨hi, k, hk, hdk⟩ := hrow
  generalize update T.row i (some (key', value)) = r at hkeys hentry ⊢
  have hden : ∀ j, (({ T with row := r } : Store V).keys j).map env.den = (T.keys j).map env.den := by
    intro j
    rw [hkeys]
    by_cases hj : j = i
    · subst hj
      rw [update_self, hk, map_some, map_some, map_some, hd, hdk]
    · rw [update_of_ne hj]
  have hlive : livePositions ({ T with row := r } : Store V).keys T.count = livePositions T.keys T.count := by
    ext j
    have h := congrArg Option.isSome (hden j)
    rw [isSome_map, isSome_map] at h
    rw [mem_livePositions, mem_livePositions, h]
  have hmem : members env ({ T with row := r } : Store V).keys T.count = members env T.keys T.count := by
    refine entries_congr fun j _ => ?_
    have h := congrArg (Option.map fun k => (k, ())) (hden j)
    rwa [Option.map_map, Option.map_map] at h
  have hfit : Fits T.domain key' := fits_of_den_eq env (hI.rows.keyOk i hi k hk).2 (hdk.trans hd.symm)
  refine ⟨⟨⟨⟨fun j hj c hcj => ?_, ?_⟩, ?_, hI.sizeLe, hI.countLe, hI.capPos, hI.capLt, hI.typed, hI.owned⟩, hI.small,
    fun hp => ?_⟩, ?_⟩
  · rw [hkeys] at hcj
    by_cases hji : j = i
    · subst hji
      rw [update_self] at hcj
      exact some.inj hcj ▸ ⟨hc, hfit⟩
    · rw [update_of_ne hji] at hcj
      exact hI.rows.keyOk j hj c hcj
  · exact hmem ▸ hI.rows.nodup
  · exact hlive ▸ hI.size
  · obtain ⟨m, hm⟩ := hI.hashed hp
    refine ⟨m, ?_⟩
    rw [Indexed, hlive]
    refine hm.congr_hash fun j _ => ?_
    -- equal keys hash alike
    rw [rowHash, rowHash, hkeys]
    by_cases hj : j = i
    · subst hj
      rw [update_self, hk]
      exact keyHashValue_eq env (hd.trans hdk.symm)
    · rw [update_of_ne hj]
  · rw [data, data, write_of_row hI.nodup hi hv, hentry, map_some, hd]

end Row

def release (T : Store V) (b : ℕ) : Store V :=
  { T with
    index := (hashIndexErase T.index b).1
    deletedSlots := T.deletedSlots + (hashIndexErase T.index b).2.toNat }

/-- **Removal** of a row and its bucket. -/
theorem Inv.release (hI : T.Inv env) (hp : ¬ T.inline) (hb : b < T.index.capacity)
    (hl : T.index.controls b < hashEmpty) (hrow : T.HasAt env key (T.index.slots b)) :
    ((T.release b).erase (T.index.slots b)).Inv env ∧
      Effect env T ((T.release b).erase (T.index.slots b)) (remove · (env.den key)) := by
  obtain ⟨k, hk⟩ := hI.hashed hp
  have hE := hI.toRowsInv.erase hrow
  have hdata := data_erase hrow hI.toRowsInv
  refine ⟨⟨{ hE with }, fun h => absurd h hp, fun _ => ⟨k, ?_⟩⟩, .of_data hdata rfl⟩
  have hkeys := keys_update T (T.index.slots b) none
  rw [map_none] at hkeys
  have hH := holds_erase hk hb hl
  rw [← hkeys] at hH
  exact hH

theorem Effect.remove_absent (h : T.Lacks env key) : Effect env T T (remove · (env.den key)) :=
  of_data (LiveList.remove_of_absent (contains_of_absent h)).symm rfl

theorem inv_empty (hinline : T.inline) (hcount : T.count = 0) (hsize : T.size = 0) (hcap : T.capacity = 4)
    (hindex : T.index.capacity = 0) (hdeleted : T.deletedSlots = 0) (howned : T.ownerReleased = false) : T.Inv env := by
  refine ⟨⟨⟨?_, ?_⟩, ?_, ?_, ?_, ?_, ?_, fun h => absurd hinline h, howned⟩, fun _ => ⟨hcap, hindex, hdeleted⟩,
    fun h => absurd hinline h⟩
  · rw [hcount]
    exact nofun
  · rw [hcount]
    exact List.nodup_nil
  · rw [hsize, hcount]
    rfl
  · rw [hsize]
    exact Nat.zero_le _
  all_goals omega

/-- **Clear.** Every place is empty and so is the index. -/
theorem Inv.clear (hI : T.Inv env) (hr : ∀ i < T.count, T'.row i = none) (hp : T'.inline ↔ T.inline) (h : T' = { T with
      row := T'.row, inline := T'.inline, size := 0, deletedSlots := 0
      index := if T.index.capacity ≠ 0 then hashIndexReset T.index.slots T.index.capacity else T.index }) :
    T'.Inv env ∧ Effect env T T' removeAll := by
  generalize T'.row = r at h hr
  generalize T'.inline = inline at h hp
  subst h
  have hpos : livePositions (fun i => (r i).map Prod.fst) T.count = ∅ := by
    rw [Finset.eq_empty_iff_forall_notMem]
    intro i hi
    obtain ⟨hlt, hsome⟩ := mem_livePositions.1 hi
    rw [hr i hlt] at hsome
    cases hsome
  refine ⟨⟨⟨⟨fun i hi k hk => ?_, ?_⟩, ?_, Nat.zero_le _, hI.countLe, hI.capPos, hI.capLt, fun h => hI.typed (mt hp.2 h),
    hI.owned⟩, fun h => ?_, fun h => ?_⟩, .of_data ?_ rfl⟩
  · change (r i).map Prod.fst = some k at hk
    rw [hr i hi] at hk
    cases hk
  · have hlen := length_members env (fun i => (r i).map Prod.fst) T.count
    rw [hpos] at hlen
    have hnil := List.length_eq_zero_iff.1 hlen
    change ((members env (fun i => (r i).map Prod.fst) T.count).map Prod.fst).Nodup
    rw [hnil]
    exact List.nodup_nil
  · exact (congrArg Finset.card hpos).symm
  · obtain ⟨h1, h2, -⟩ := hI.small (hp.1 h)
    refine ⟨h1, ?_, rfl⟩
    rw [if_neg (not_not.2 h2)]
    exact h2
  · obtain ⟨k, hk⟩ := hI.hashed (mt hp.2 h)
    have hc : T.index.capacity ≠ 0 := by rw [hk.cap]; positivity
    refine ⟨k, ?_⟩
    change Holds k _ (if _ then _ else _) 0 (livePositions (fun i => (r i).map Prod.fst) T.count)
    rw [hpos, if_pos hc, hk.cap]
    exact Holds.reset k _ _
  · rw [data, data, removeAll, places, places, List.map_map]
    refine List.map_congr_left fun i hi => ?_
    exact congrArg (Option.map _) (hr i (List.mem_range.1 hi))

/-! ## Compaction -/

/-- **The pass** leaves the live rows without gaps. -/
theorem RowsInv.packed (hI : T.RowsInv env) (hp : T.pins = 0) {r : ℕ → Option (MalValue × V)}
    (h : Compacting T.row T.count (r, n)) : ({ T with row := r, count := n } : Store V).RowsInv env ∧
      Compacted env T { T with row := r, count := n } ∧ n = T.size ∧ ∀ i < n, (r i).isSome = true := by
  obtain ⟨hlen, hentries, hlive⟩ := compact_spec h
  dsimp only at hlen hentries hlive
  have hn : n ≤ T.count := hlen ▸ length_entries_le _ _
  have hcont : ({ T with row := r, count := n } : Store V).contents env = T.contents env := by
    rw [contents_eq_map, contents_eq_map]
    exact congrArg _ hentries
  have hsize : n = T.size := by rw [← hI.length, contents_eq_map, List.length_map, hlen]
  have hcard := length_contents env ({ T with row := r, count := n } : Store V)
  rw [hcont, hI.length] at hcard
  refine ⟨{ hI with rows := ⟨fun i hi k hk => ?_, ?_⟩, size := hcard, countLe := hn.trans hI.countLe },
    ⟨hcont, rfl, rfl, hn, le_rfl, fun h => absurd hp h⟩, hsize, hlive⟩
  · obtain ⟨⟨k', v⟩, hrow, rfl⟩ := map_eq_some_iff.1 hk
    have hmem : (k', v) ∈ entries r n := mem_entries.2 ⟨i, hi, hrow⟩
    rw [hentries] at hmem
    obtain ⟨j, hj, hrow'⟩ := mem_entries.1 hmem
    exact hI.rows.keyOk j hj k' (by rw [keys, hrow']; rfl)
  · have hnd := hI.nodup
    rw [← hcont, keys_contents] at hnd
    exact hnd

theorem RowsInv.shrink (hI : T.RowsInv env) (hp : ¬ T.inline) (hpins : T.pins = 0)
    (hcap : T.count ≤ capacity ∧ 0 < capacity ∧ capacity < 2 ^ 31)
    (h : Agree { T with inline := False, capacity := capacity } T') : T'.RowsInv env ∧ Compacted env T T' := by
  have hcont : T'.contents env = T.contents env := h.contents
  refine ⟨h.rowsInv (hI.resize hcap (fun _ => hI.typed hp) fun i hi k hk => (hI.rows.keyOk i hi k hk).2), ?_⟩
  obtain ⟨r, -, rfl⟩ := h
  exact ⟨hcont, rfl, rfl, le_rfl, le_rfl, fun h => absurd hpins h⟩

end Store

end Maligator.Collection
