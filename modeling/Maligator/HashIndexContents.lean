/-
What a grouped hash index holds.

`Holds k hash index deleted members` says that the index of capacity 16 * 2^k holds exactly the finite set `members`, each
in one bucket, that its table invariant is met, that `deleted` is its number of tombstones, and that it is within the 7/8
occupancy bound. Every operation of `hash_index.h` has one lemma about it here; the storages use these lemmas only.
-/
import Maligator.HashIndex

namespace Maligator.HashIndex

open GroupTable Function Bool Finset

variable {E : Type} {c : ℕ}

def liveCtrl (c : ℕ) : Bool := decide (c < hashEmpty)
def deletedCtrl (c : ℕ) : Bool := c == hashDeleted

theorem liveCtrl_iff : liveCtrl c = true ↔ c < hashEmpty := decide_eq_true_iff
theorem deletedCtrl_iff : deletedCtrl c = true ↔ c = hashDeleted := beq_iff_eq

theorem deletedCtrl_of_live (h : c < hashEmpty) : deletedCtrl c = false := by
  rw [← not_eq_true, deletedCtrl_iff]
  rintro rfl
  exact absurd h (by decide)

/-- the index holds exactly `members` -/
structure Holds (k : ℕ) (hash : E → BitVec 64) (index : MalHashIndex E) (deleted : ℕ) (members : Finset E) : Prop where
  cap : index.capacity = 16 * 2 ^ k
  table : Inv (layout k) hash index.controls index.slots
  mem : ∀ b < 16 * 2 ^ k, index.controls b < hashEmpty → index.slots b ∈ members
  bucket : ∀ e ∈ members, ∃ b < 16 * 2 ^ k, index.controls b < hashEmpty ∧ index.slots b = e
  inj : ∀ b < 16 * 2 ^ k, ∀ c < 16 * 2 ^ k, index.controls b < hashEmpty → index.controls c < hashEmpty →
    index.slots b = index.slots c → b = c
  tombs : count deletedCtrl index.controls (16 * 2 ^ k) = deleted
  fits : hashIndexFits (members.card + deleted) (16 * 2 ^ k) = true

namespace Holds

variable {k deleted : ℕ} {hash : E → BitVec 64} {index : MalHashIndex E} {members : Finset E}

variable {hv : BitVec 64} {j b k' : ℕ}

section

variable (h : Holds k hash index deleted members)
include h

theorem live_count : count liveCtrl index.controls (16 * 2 ^ k) = members.card := by
  refine card_nbij index.slots ?_ ?_ ?_
  · intro b hb
    rw [mem_coe, mem_filter, mem_range, liveCtrl_iff] at hb
    exact h.mem b hb.1 hb.2
  · intro b hb c hc heq
    rw [mem_coe, mem_filter, mem_range, liveCtrl_iff] at hb hc
    exact h.inj b hb.1 c hc.1 hb.2 hc.2 heq
  · intro e he
    obtain ⟨b, hb, hl, rfl⟩ := h.bucket e he
    exact ⟨b, by simp [liveCtrl_iff, hb, hl], rfl⟩

theorem occupied_lt : members.card + deleted < 16 * 2 ^ k := by
  have := h.fits
  have hpos := Nat.two_pow_pos k
  simp only [hashIndexFits, decide_eq_true_eq] at this
  omega

theorem exists_empty : ∃ b < 16 * 2 ^ k, index.controls b = hashEmpty := by
  have hlt : count (fun c => liveCtrl c || deletedCtrl c) index.controls (16 * 2 ^ k) < 16 * 2 ^ k := by
    rw [← count_add_count, h.live_count, h.tombs]
    · exact h.occupied_lt
    · intro i _ hboth
      rw [deletedCtrl_of_live (liveCtrl_iff.1 hboth.1)] at hboth
      cases hboth.2
  obtain ⟨b, hb, hneither⟩ := exists_not_of_count_lt hlt
  refine ⟨b, hb, ?_⟩
  rw [or_eq_false_iff, ← not_eq_true, ← not_eq_true, liveCtrl_iff, deletedCtrl_iff] at hneither
  rcases h.table.valid b hb with hl | he | hd
  · exact absurd (by simpa using hl) hneither.1
  · exact he
  · exact absurd hd hneither.2

theorem not_hit_of_missed {hit : E → Bool} (hhash : ∀ e ∈ members, hit e = true → hash e = hv)
    (hpre : ∀ i ≤ j, ∀ b, b / 16 = (layout k).path hv i → index.controls b = hashTag hv → hit (index.slots b) = false)
    (hstop : ¬ (layout k).Full index.controls ((layout k).path hv j)) : ∀ e ∈ members, hit e = false := by
  intro e he
  obtain ⟨b, hb, hl, rfl⟩ := h.bucket e he
  have := h.table.not_hit_of_prefix (fun b => hit (index.slots b) = true) (h := hv) (j := j)
    (fun b hb hl => hhash _ (h.mem b hb (by simpa using hl)))
    (fun i hi b hg ht => by simp [hpre i hi b hg ht]) hstop b hb (by simpa using hl)
  simpa using this

end

theorem live_of_tag (hv : BitVec 64) (hc : c = hashTag hv) : c < hashEmpty := hc ▸ hashTag_lt hv

/-- **Lookup.** A lookup ends; it returns the bucket of a member that is a hit, or nothing when no member is one. -/
theorem lookup (h : Holds k hash index deleted members) (hit : E → Bool)
    (hhash : ∀ e ∈ members, hit e = true → hash e = hv) :
    ∃ r, hashSearch index.controls index.capacity hv (fun b => hit (index.slots b)) false = some r ∧ match r with
      | some b => b < 16 * 2 ^ k ∧ index.controls b < hashEmpty ∧ index.slots b ∈ members ∧ hit (index.slots b) = true
      | none => ∀ e ∈ members, hit e = false := by
  obtain ⟨b, hb, he⟩ := h.exists_empty
  obtain ⟨r, hr, hout⟩ := hashSearch_outcome hb he hv (fun b => hit (index.slots b)) false
  refine ⟨r, by rw [h.cap]; exact hr, ?_⟩
  cases hout with
  | found hb htag hhit =>
    have hl := live_of_tag hv htag
    exact ⟨hb, hl, h.mem _ hb hl, hhit⟩
  | missed hpre hstop hlookup _ =>
    rw [hlookup rfl]
    exact h.not_hit_of_missed hhash hpre hstop

/-- a bucket that may take a new entry of hash `hv` -/
structure Vacant (k : ℕ) (index : MalHashIndex E) (hv : BitVec 64) (b : ℕ) : Prop where
  lt : b < 16 * 2 ^ k
  reach : (layout k).Reaches index.controls hv b
  ctrl : index.controls b = hashDeleted ∨ index.controls b = hashEmpty

theorem Vacant.not_live (hv' : Vacant k index hv b) : ¬ index.controls b < hashEmpty := by
  rcases hv'.ctrl with h | h <;> rw [h] <;> decide

section

variable (h : Holds k hash index deleted members)
include h

/-- **Find for insertion.** The search returns a hit's bucket, or a vacant bucket when no member is a hit. -/
theorem find (hit : E → Bool) (hhash : ∀ e ∈ members, hit e = true → hash e = hv) : ∃ b < 16 * 2 ^ k,
      hashSearch index.controls index.capacity hv (fun b => hit (index.slots b)) true = some (some b) ∧
      ((index.controls b < hashEmpty ∧ index.slots b ∈ members ∧ hit (index.slots b) = true) ∨
        (Vacant k index hv b ∧ ∀ e ∈ members, hit e = false)) := by
  obtain ⟨b, hb, he⟩ := h.exists_empty
  obtain ⟨r, hr, hout⟩ := hashSearch_outcome hb he hv (fun b => hit (index.slots b)) true
  rw [h.cap]
  cases hout with
  | found hb htag hhit =>
    have hl := live_of_tag hv htag
    exact ⟨_, hb, hr, .inl ⟨hl, h.mem _ hb hl, hhit⟩⟩
  | missed hpre hstop _ hinsert =>
    obtain ⟨b', hb', rfl, hreach, hctrl⟩ := hinsert rfl
    exact ⟨b', hb', hr, .inr ⟨⟨hb', hreach, hctrl⟩, h.not_hit_of_missed hhash hpre hstop⟩⟩

theorem tomb_pos (hb : b < 16 * 2 ^ k) (hd : index.controls b = hashDeleted) : 0 < deleted := by
  rw [← h.tombs]
  refine card_pos.2 ⟨b, ?_⟩
  rw [mem_filter, mem_range]
  exact ⟨hb, deletedCtrl_iff.2 hd⟩

theorem reused_le {known : Option ℕ} (hknown : ∀ b, known = some b → Vacant k index hv b) :
    (known.any fun b => index.controls b == hashDeleted).toNat ≤ deleted := by
  cases known with
  | none => exact Nat.zero_le _
  | some b =>
    rw [Option.any_some]
    by_cases hd : index.controls b = hashDeleted
    · rw [beq_iff_eq.2 hd]
      exact h.tomb_pos (hknown b rfl).lt hd
    · rw [beq_eq_false_iff_ne.2 hd]
      exact Nat.zero_le _

theorem level_unique (h' : Holds k' hash index deleted members) : k' = k :=
  Nat.pow_right_injective le_rfl (Nat.eq_of_mul_eq_mul_left (by decide : 0 < 16) (h'.cap.symm.trans h.cap))

end

variable [DecidableEq E]

/-- **Insert.** A new entry in a vacant bucket; a reused tombstone is no longer one. -/
theorem insert (h : Holds k hash index deleted members) {e : E} (hvac : Vacant k index (hash e) b) (hnew : e ∉ members)
    (hfits : hashIndexFits (members.card + 1 + (deleted - (deletedCtrl (index.controls b)).toNat)) (16 * 2 ^ k) = true) :
    Holds k hash (hashIndexInsert index b e (hash e)) (deleted - (deletedCtrl (index.controls b)).toNat)
      (Insert.insert e members) := by
  have hnl := hvac.not_live
  refine ⟨h.cap, h.table.put hvac.reach, ?_, ?_, ?_, ?_, ?_⟩
  · intro c hc hl
    by_cases hcb : c = b
    · simp [hashIndexInsert, hcb]
    · simp only [hashIndexInsert, update_of_ne hcb] at hl ⊢
      exact mem_insert_of_mem (h.mem c hc hl)
  · intro e' he'
    rcases mem_insert.1 he' with rfl | hmem
    · exact ⟨b, hvac.lt, by simpa [hashIndexInsert] using hashTag_lt (hash e'), by simp [hashIndexInsert]⟩
    obtain ⟨c, hc, hl, rfl⟩ := h.bucket e' hmem
    have hcb : c ≠ b := by rintro rfl; exact hnl hl
    exact ⟨c, hc, by simpa [hashIndexInsert, update_of_ne hcb] using hl,
      by simp [hashIndexInsert, update_of_ne hcb]⟩
  · -- a second bucket with the new entry would have held it before
    intro c hc d hd hlc hld heq
    simp only [hashIndexInsert] at hlc hld heq
    by_cases hcb : c = b <;> by_cases hdb : d = b
    · rw [hcb, hdb]
    · subst hcb
      rw [update_of_ne hdb] at hld heq
      rw [update_self] at heq
      exact absurd (heq ▸ h.mem d hd hld) hnew
    · subst hdb
      rw [update_of_ne hcb] at hlc heq
      rw [update_self] at heq
      exact absurd (heq ▸ h.mem c hc hlc) hnew
    · rw [update_of_ne hcb] at hlc heq
      rw [update_of_ne hdb] at hld heq
      exact h.inj c hc d hd hlc hld heq
  · have hcount := count_update deletedCtrl index.controls hvac.lt (hashTag (hash e))
    rw [deletedCtrl_of_live (hashTag_lt (hash e)), h.tombs] at hcount
    simp only [hashIndexInsert, toNat_false] at hcount ⊢
    omega
  · rwa [card_insert_of_notMem hnew]

/-- **Erase.** The bucket's entry leaves; the tombstones grow by one exactly when the group was full. -/
theorem erase (h : Holds k hash index deleted members) (hb : b < 16 * 2 ^ k) (hl : index.controls b < hashEmpty) :
    Holds k hash (hashIndexErase index b).1 (deleted + (hashIndexErase index b).2.toNat)
      (members.erase (index.slots b)) := by
  have hmem := h.mem b hb hl
  have hcard := card_erase_of_mem hmem
  have hpos := card_pos.2 ⟨_, hmem⟩
  have hdead : ¬ (if (hashControlsErase index.controls b).2 then hashDeleted else hashEmpty) < hashEmpty := by
    split <;> decide
  have hctrl : (hashIndexErase index b).1.controls = Function.update index.controls b
      (if (hashControlsErase index.controls b).2 then hashDeleted else hashEmpty) := rfl
  have hne : ∀ c, (hashIndexErase index b).1.controls c < hashEmpty → c ≠ b ∧ index.controls c < hashEmpty := by
    intro c hlc
    rw [hctrl] at hlc
    have hcb : c ≠ b := by
      rintro rfl
      rw [update_self] at hlc
      exact hdead hlc
    rw [update_of_ne hcb] at hlc
    exact ⟨hcb, hlc⟩
  refine ⟨h.cap, h.table.erase (hashControlsErase_deleted k index.controls b), ?_, ?_, ?_, ?_, ?_⟩
  · intro c hc hlc
    obtain ⟨hcb, hlc'⟩ := hne c hlc
    exact mem_erase.2 ⟨fun heq => hcb (h.inj c hc b hb hlc' hl heq), h.mem c hc hlc'⟩
  · intro e he
    obtain ⟨hne', hmem'⟩ := mem_erase.1 he
    obtain ⟨c, hc, hlc, rfl⟩ := h.bucket e hmem'
    have hcb : c ≠ b := by rintro rfl; exact hne' rfl
    exact ⟨c, hc, by rw [hctrl, update_of_ne hcb]; exact hlc, rfl⟩
  · intro c hc d hd hlc hld heq
    exact h.inj c hc d hd (hne c hlc).2 (hne d hld).2 heq
  · have hcount := count_update deletedCtrl index.controls hb
      (if (hashControlsErase index.controls b).2 then hashDeleted else hashEmpty)
    have hnew : deletedCtrl (if (hashControlsErase index.controls b).2 then hashDeleted else hashEmpty)
        = (hashControlsErase index.controls b).2 := by
      cases (hashControlsErase index.controls b).2 <;> rfl
    rw [deletedCtrl_of_live hl, hnew, h.tombs] at hcount
    exact hcount
  · have hbool : (hashIndexErase index b).2.toNat ≤ 1 := toNat_le _
    refine hashIndexFits_mono ?_ h.fits
    omega

omit [DecidableEq E] in
theorem reset (k : ℕ) (hash : E → BitVec 64) (slots : ℕ → E) :
    Holds k hash (hashIndexReset slots (16 * 2 ^ k)) 0 ∅ where
  cap := rfl
  table := Inv.of_empty fun _ _ => rfl
  mem b _ hl := absurd hl (by simp [hashIndexReset])
  bucket e he := absurd he (notMem_empty e)
  inj b _ c _ hl := absurd hl (by simp [hashIndexReset])
  tombs := by simp [count, hashIndexReset, deletedCtrl, hashEmpty, hashDeleted]
  fits := by simp [hashIndexFits]

omit [DecidableEq E] in
theorem congr_hash (h : Holds k hash index deleted members) {hash' : E → BitVec 64}
    (heq : ∀ e ∈ members, hash' e = hash e) : Holds k hash' index deleted members where
  cap := h.cap
  table := h.table.congr fun b hb hl => heq _ (h.mem b hb (by simpa using hl))
  mem := h.mem
  bucket := h.bucket
  inj := h.inj
  tombs := h.tombs
  fits := h.fits

/-- **Replace.** Entries that are rewritten in place, with the hashes they had. -/
theorem replace (h : Holds k hash index deleted members) {f : E → E} {slots : ℕ → E}
    (hslots : ∀ b < 16 * 2 ^ k, index.controls b < hashEmpty → slots b = f (index.slots b))
    (hhash : ∀ e ∈ members, hash (f e) = hash e) (hf : Set.InjOn f members) :
    Holds k hash { index with slots := slots } deleted (members.image f) where
  cap := h.cap
  table := h.table.congr fun b hb hl => by
    have hl' : index.controls b < hashEmpty := by simpa using hl
    exact (congrArg hash (hslots b hb hl')).trans (hhash _ (h.mem b hb hl'))
  mem b hb hl := by
    have hs := mem_image_of_mem f (h.mem b hb hl)
    rwa [← hslots b hb hl] at hs
  bucket e he := by
    obtain ⟨e', he', rfl⟩ := mem_image.1 he
    obtain ⟨b, hb, hl, rfl⟩ := h.bucket e' he'
    exact ⟨b, hb, hl, hslots b hb hl⟩
  inj b hb c hc hlb hlc heq := by
    refine h.inj b hb c hc hlb hlc (hf (h.mem b hb hlb) (h.mem c hc hlc) ?_)
    rw [← hslots b hb hlb, ← hslots c hc hlc]
    exact heq
  tombs := h.tombs
  fits := by rw [card_image_of_injOn hf]; exact h.fits

/-- **Fill.** Putting distinct new entries into empty buckets one after the other. -/
theorem fill (entries : List E) : ∀ (index : MalHashIndex E) (members : Finset E), Holds k hash index 0 members →
    entries.Nodup → (∀ e ∈ entries, e ∉ members) → hashIndexFits (members.card + entries.length) (16 * 2 ^ k) = true →
    ∃ index', hashIndexFill hash index entries = some index' ∧ Holds k hash index' 0 (members ∪ entries.toFinset) := by
  induction entries with
  | nil =>
    intro index members h _ _ _
    exact ⟨index, rfl, by simpa using h⟩
  | cons e entries ih =>
    intro index members h hnd hnew hfits
    obtain ⟨he, hnd⟩ := List.nodup_cons.1 hnd
    have hem : e ∉ members := hnew e List.mem_cons_self
    obtain ⟨b, hb, hempty⟩ := h.exists_empty
    obtain ⟨b', hb', hslot, hctrl, hreach⟩ := hashControlsEmptySlot_spec hb hempty (hash e)
    have hdel : deletedCtrl (index.controls b') = false := by rw [hctrl]; rfl
    have h' := h.insert (e := e) ⟨hb', hreach, .inr hctrl⟩ hem (by
      simp only [hashIndexFits, decide_eq_true_eq, List.length_cons] at hfits ⊢
      omega)
    rw [hdel] at h'
    have hcard := card_insert_of_notMem hem
    obtain ⟨index', hfill, hh⟩ := ih _ _ h' hnd (by
      intro x hx hmem
      rcases mem_insert.1 hmem with rfl | hm
      · exact he hx
      · exact hnew x (List.mem_cons_of_mem e hx) hm) (by
      rw [hcard]
      simpa [add_assoc, add_comm 1] using hfits)
    refine ⟨index', ?_, ?_⟩
    · simp only [hashIndexFill, List.foldlM_cons, hashIndexEmptySlot, h.cap, hslot]
      exact hfill
    · rwa [List.toFinset_cons, union_insert, ← insert_union]

theorem rebuild (k : ℕ) (hash : E → BitVec 64) (slots : ℕ → E) {entries : List E} (hnd : entries.Nodup)
    (hfits : hashIndexFits entries.length (16 * 2 ^ k) = true) :
    ∃ index', hashIndexFill hash (hashIndexReset slots (16 * 2 ^ k)) entries = some index' ∧
      Holds k hash index' 0 entries.toFinset := by
  simpa using fill entries _ ∅ (reset k hash slots) hnd (by simp) (by simpa using hfits)

end Holds

end Maligator.HashIndex
