/-
A cursor over an ordered collection that changes under it.

A position is one way to describe a cursor; `LiveCursor` is the other: the entries it has passed and the entries ahead of
it. Then a step moves the first entry ahead to the passed ones and yields it, a deletion takes an entry away on either side,
and a new key is put at the end of those ahead. `split` relates the two, and `Kept` says that no entry changed its position.

`split_apply`, `split_next`: the position and the two lists agree step by step.
`cursorRun_live`: so a store that changes its places as `Mutation.apply` says yields what the two lists yield, in every
interleaving of steps and mutations.
`dataRun_live`: the list with empty places is such a store, and `cursorRun_opened` has the cursor yield what it yields.
-/
import Maligator.Lib.LiveList

namespace Maligator.LiveList

open Rows

variable {K V : Type*}

/-! ## Passed and ahead -/

/-- the entries a cursor has passed and those ahead of it -/
structure LiveCursor (K V : Type*) where
  passed : List (K × V)
  ahead : List (K × V)

namespace LiveCursor

def next (c : LiveCursor K V) : Option (K × V) × LiveCursor K V :=
  match c.ahead with
  | [] => (none, c)
  | p :: ahead => (some p, ⟨c.passed ++ [p], ahead⟩)

variable [DecidableEq K]

/-- a new value for an entry on either side, or a new entry at the end -/
def write (c : LiveCursor K V) (k : K) (v : V) : LiveCursor K V :=
  if contains c.passed k then { c with passed := Rows.insert c.passed k v }
  else { c with ahead := Rows.insert c.ahead k v }

def remove (c : LiveCursor K V) (k : K) : LiveCursor K V := ⟨Rows.erase c.passed k, Rows.erase c.ahead k⟩

end LiveCursor

def split (data : List (Option (K × V))) (i : ℕ) : LiveCursor K V := ⟨live (data.take i), live (data.drop i)⟩

theorem live_append (a b : List (Option (K × V))) : live (a ++ b) = live a ++ live b := List.filterMap_append

variable {a b c : List (Option (K × V))} {i : ℕ}

theorem split_append (h : a.length = i) : split (a ++ b) i = ⟨live a, live b⟩ := by
  rw [split, List.take_left' h, List.drop_left' h]

theorem exists_append {data : List (Option (K × V))} (hi : i ≤ data.length) : ∃ a b, data = a ++ b ∧ a.length = i :=
  ⟨data.take i, data.drop i, (List.take_append_drop i data).symm, by rw [List.length_take]; omega⟩

theorem split_next (data : List (Option (K × V))) (hi : i ≤ data.length) :
    (split data i).next.1 = (next data i).1 ∧ (split data i).next.2 = split data (next data i).2 ∧
      (next data i).2 ≤ data.length := by
  obtain ⟨n, hn⟩ := Nat.exists_eq_add_of_le hi
  induction n generalizing i with
  | zero =>
    rw [Nat.add_zero] at hn
    have hsplit : split data i = ⟨live data, []⟩ := by
      rw [split, ← hn, List.take_length, List.drop_length]
      rfl
    rw [next_of_end (List.getElem?_eq_none_iff.2 hn.le), hsplit]
    exact ⟨rfl, rfl, hn.ge⟩
  | succ n ih =>
    have hlt : i < data.length := by omega
    have htake : data.take (i + 1) = data.take i ++ [data[i]] := List.take_succ_eq_append_getElem hlt
    have hdrop : data.drop i = data[i] :: data.drop (i + 1) := List.drop_eq_getElem_cons hlt
    cases he : data[i] with
    | none =>
      have hsome : data[i]? = some none := by rw [List.getElem?_eq_getElem hlt, he]
      have hsame : split data i = split data (i + 1) := by
        rw [split, split, htake, hdrop, he]
        simp [live]
      rw [next_of_empty hsome, hsame]
      exact ih hlt (by omega)
    | some p =>
      have hsome : data[i]? = some (some p) := by rw [List.getElem?_eq_getElem hlt, he]
      have hahead : split data i = ⟨live (data.take i), p :: live (data.drop (i + 1))⟩ := by
        rw [split, hdrop, he]
        rfl
      have hnext : split data (i + 1) = ⟨live (data.take i) ++ [p], live (data.drop (i + 1))⟩ := by
        rw [split, htake, he, live_append]
        rfl
      rw [next_of_entry hsome, hahead, hnext]
      exact ⟨rfl, rfl, hlt⟩

section Mutation

variable [DecidableEq K] {k : K} (a b : List (Option (K × V)))

theorem position_isSome (data : List (Option (K × V))) (k : K) : (position data k).isSome = contains (live data) k := by
  obtain ⟨row, n, rfl⟩ := exists_places data
  rw [live_places]
  cases hc : contains (entries row n) k with
  | false => rw [position_eq_none.2 hc]; rfl
  | true =>
    cases hp : position (places row n) k with
    | some i => rfl
    | none => rw [position_eq_none.1 hp] at hc; cases hc

theorem position_append (k : K) : position (a ++ b) k = (position a k).or ((position b k).map (· + a.length)) := by
  rw [position, position, position, List.findIdx?_append]

theorem position_lt {data : List (Option (K × V))} (h : position data k = some i) : i < data.length :=
  (List.findIdx?_eq_some_iff_getElem.1 h).1

theorem write_append (k : K) (v : V) :
    write (a ++ b) k v = if contains (live a) k then write a k v ++ b else a ++ write b k v := by
  rw [← position_isSome]
  unfold write
  rw [position_append]
  cases ha : position a k with
  | some i =>
    have hi := position_lt ha
    simp [hi]
  | none =>
    cases hb : position b k with
    | some j => simp
    | none => simp

theorem remove_append (k : K) :
    remove (a ++ b) k = if contains (live a) k then remove a k ++ b else a ++ remove b k := by
  rw [← position_isSome]
  unfold remove
  rw [position_append]
  cases ha : position a k with
  | some i =>
    have hi := position_lt ha
    simp [hi]
  | none =>
    cases hb : position b k with
    | some j => simp
    | none => simp

theorem length_write_of_contains {data : List (Option (K × V))} (h : contains (live data) k = true) (v : V) :
    (write data k v).length = data.length := by
  rw [← position_isSome] at h
  obtain ⟨i, hi⟩ := Option.isSome_iff_exists.1 h
  rw [write, hi, List.length_set]

theorem length_remove (data : List (Option (K × V))) (k : K) : (remove data k).length = data.length := by
  unfold remove
  cases position data k <;> simp

variable {data : List (Option (K × V))} (hu : ((live data).map Prod.fst).Nodup) (hi : i ≤ data.length)

include hu hi

/-- **Write** under a cursor. -/
theorem split_write (k : K) (v : V) : split (write data k v) i = (split data i).write k v := by
  obtain ⟨a, b, rfl, rfl⟩ := exists_append hi
  rw [live_append, List.map_append, List.nodup_append] at hu
  rw [write_append, split_append rfl, LiveCursor.write]
  cases hc : contains (live a) k with
  | true => rw [if_pos rfl, if_pos rfl, split_append (length_write_of_contains hc v), live_write hu.1]
  | false => rw [if_neg (by simp), if_neg (by simp), split_append rfl, live_write hu.2.1]

/-- **Remove** under a cursor. -/
theorem split_remove (k : K) : split (remove data k) i = (split data i).remove k := by
  obtain ⟨a, b, rfl, rfl⟩ := exists_append hi
  rw [live_append, List.map_append, List.nodup_append] at hu
  rw [remove_append, split_append rfl, LiveCursor.remove]
  cases hc : contains (live a) k with
  | true =>
    have hb : contains (live b) k = false := by
      rw [← Bool.not_eq_true, contains_iff]
      exact fun h => hu.2.2 k (contains_iff.1 hc) k h rfl
    rw [if_pos rfl, split_append (length_remove a k), live_remove hu.1, erase_of_not_contains hb]
  | false => rw [if_neg (by simp), split_append rfl, live_remove hu.2.1, erase_of_not_contains hc]

end Mutation

theorem split_removeAll (data : List (Option (K × V))) (i : ℕ) : split (removeAll data) i = ⟨[], []⟩ := by
  have hlive : ∀ l : List (Option (K × V)), live (l.map fun _ => (none : Option (K × V))) = [] := live_removeAll
  rw [split, removeAll, ← List.map_take, ← List.map_drop, hlive, hlive]

/-! ## Mutations -/

/-- what a call can do to the data -/
inductive Mutation (K V : Type*) where
  | keep
  | write (k : K) (v : V)
  | remove (k : K)
  | removeAll

/-- no entry is renumbered: a place that is not empty now held the same key before, or is new -/
structure Kept (before after : List (Option (K × V))) : Prop where
  length : before.length ≤ after.length
  key : ∀ i p, after[i]? = some (some p) → i < before.length → ∃ v, before[i]? = some (some (p.1, v))

theorem Kept.refl (data : List (Option (K × V))) : Kept data data := ⟨le_rfl, fun _ p h _ => ⟨p.2, h⟩⟩

theorem Kept.trans (hab : Kept a b) (hbc : Kept b c) : Kept a c := by
  refine ⟨hab.length.trans hbc.length, fun i p h hi => ?_⟩
  obtain ⟨v, hv⟩ := hbc.key i p h (hi.trans_le hab.length)
  exact hab.key i (p.1, v) hv hi

theorem kept_set {data : List (Option (K × V))} {r : Option (K × V)} (h : ∀ p, r = some p → ∃ v, data[i]? = some (some (p.1, v))) :
    Kept data (data.set i r) := by
  refine ⟨by rw [List.length_set], fun j p hj hlt => ?_⟩
  rw [List.getElem?_set] at hj
  split_ifs at hj with hij hi
  · subst hij
    exact h p (Option.some.inj hj)
  · exact ⟨p.2, hj⟩

theorem kept_append (data rest : List (Option (K × V))) : Kept data (data ++ rest) := by
  refine ⟨by simp, fun i p h hi => ⟨p.2, ?_⟩⟩
  rwa [List.getElem?_append_left hi] at h

namespace Mutation

variable [DecidableEq K]

def apply (data : List (Option (K × V))) : Mutation K V → List (Option (K × V))
  | .keep => data
  | .write k v => LiveList.write data k v
  | .remove k => LiveList.remove data k
  | .removeAll => LiveList.removeAll data

def applyCursor (c : LiveCursor K V) : Mutation K V → LiveCursor K V
  | .keep => c
  | .write k v => c.write k v
  | .remove k => c.remove k
  | .removeAll => ⟨[], []⟩

end Mutation

section Apply

variable [DecidableEq K] {data : List (Option (K × V))}

theorem split_apply (hu : ((live data).map Prod.fst).Nodup) (hi : i ≤ data.length) (m : Mutation K V) :
    split (m.apply data) i = m.applyCursor (split data i) := by
  cases m with
  | keep => rfl
  | write k v => exact split_write hu hi k v
  | remove k => exact split_remove hu hi k
  | removeAll => exact split_removeAll data i

theorem position_key {k : K} (h : position data k = some i) : ∃ v, data[i]? = some (some (k, v)) := by
  obtain ⟨hi, hk, -⟩ := List.findIdx?_eq_some_iff_getElem.1 h
  cases he : data[i] with
  | none => simp [he] at hk
  | some p =>
    rw [he] at hk
    exact ⟨p.2, by rw [List.getElem?_eq_getElem hi, he, ← of_decide_eq_true hk]⟩

theorem kept_apply (data : List (Option (K × V))) (m : Mutation K V) : Kept data (m.apply data) := by
  cases m with
  | keep => exact Kept.refl data
  | write k v =>
    rw [Mutation.apply, LiveList.write]
    cases hp : position data k with
    | none => exact kept_append data _
    | some i =>
      refine kept_set fun p h => ?_
      rw [← Option.some.inj h]
      exact position_key hp
  | remove k =>
    rw [Mutation.apply, LiveList.remove]
    cases hp : position data k with
    | none => exact Kept.refl data
    | some i => exact kept_set (by simp)
  | removeAll =>
    refine ⟨by simp [Mutation.apply, removeAll], fun i p h hi => ?_⟩
    rw [Mutation.apply, removeAll, List.getElem?_map] at h
    simp at h

end Apply

/-! ## Interleavings -/

/-- what happens to a collection and a cursor over it -/
inductive CursorEvent (Op : Type*) where
  | next
  | call (op : Op)

section Run

variable {S Op : Type*} (step : S → Op → Option S) (iterNext : S → ℕ → Option (K × V) × ℕ)

/-- a store and the position of a cursor over it; each step of the cursor gives an entry, or says that there is none -/
def cursorRun : S → ℕ → List (CursorEvent Op) → Option (S × ℕ × List (Option (K × V)))
  | s, index, [] => some (s, index, [])
  | s, index, .next :: events =>
    (cursorRun s (iterNext s index).2 events).map fun (last, i, yields) => (last, i, (iterNext s index).1 :: yields)
  | s, index, .call op :: events => (step s op).bind fun s' => cursorRun s' index events

def Allowed (ok : S → Op → Prop) : S → List (CursorEvent Op) → Prop
  | _, [] => True
  | s, .next :: events => Allowed ok s events
  | s, .call op :: events => ok s op ∧ ∀ s', step s op = some s' → Allowed ok s' events

end Run

section Live

variable [DecidableEq K] {S Op : Type*} (mutation : Op → Mutation K V)

def liveRun : LiveCursor K V → List (CursorEvent Op) → LiveCursor K V × List (Option (K × V))
  | c, [] => (c, [])
  | c, .next :: events => ((liveRun c.next.2 events).1, c.next.1 :: (liveRun c.next.2 events).2)
  | c, .call op :: events => liveRun ((mutation op).applyCursor c) events

variable {step : S → Op → Option S} {iterNext : S → ℕ → Option (K × V) × ℕ} {ok : S → Op → Prop} (Inv : S → Prop)
  (data : S → List (Option (K × V))) {d : List (Option (K × V))}

theorem cursorRun_live
    (hstep : ∀ s op, Inv s → ok s op → ∃ s', step s op = some s' ∧ Inv s' ∧ data s' = (mutation op).apply (data s))
    (hiter : ∀ s i, Inv s → iterNext s i = next (data s) i) (hu : ∀ s, Inv s → ((live (data s)).map Prod.fst).Nodup)
    (events : List (CursorEvent Op)) (s : S) (i : ℕ) (hs : Inv s) (hi : i ≤ (data s).length)
    (hok : Allowed step ok s events) :
    ∃ s' i', cursorRun step iterNext s i events = some (s', i', (liveRun mutation (split (data s) i) events).2) ∧
      Kept (data s) (data s') := by
  induction events generalizing s i with
  | nil => exact ⟨s, i, rfl, Kept.refl _⟩
  | cons event events ih =>
    cases event with
    | next =>
      obtain ⟨hyield, hsplit, hle⟩ := split_next (data s) hi
      obtain ⟨s', i', hrun, hkept⟩ := ih s (next (data s) i).2 hs hle hok
      refine ⟨s', i', ?_, hkept⟩
      rw [cursorRun, hiter s i hs, hrun, liveRun, hyield, hsplit]
      rfl
    | call op =>
      obtain ⟨hop, hrest⟩ := hok
      obtain ⟨t, ht, hit, hdata⟩ := hstep s op hs hop
      have hkept : Kept (data s) (data t) := hdata ▸ kept_apply (data s) (mutation op)
      obtain ⟨s', i', hrun, hkept'⟩ := ih t i hit (hi.trans hkept.length) (hrest t ht)
      have hsplit : split (data t) i = (mutation op).applyCursor (split (data s) i) := by
        rw [hdata, split_apply (hu s hs) hi]
      rw [hsplit] at hrun
      refine ⟨s', i', ?_, hkept.trans hkept'⟩
      rw [cursorRun, ht]
      exact hrun

theorem nodup_apply (h : ((live d).map Prod.fst).Nodup) (m : Mutation K V) :
    ((live (m.apply d)).map Prod.fst).Nodup := by
  cases m with
  | keep => exact h
  | write k v => rw [Mutation.apply, live_write h]; exact nodup_insert k v h
  | remove k => rw [Mutation.apply, live_remove h]; exact nodup_erase k h
  | removeAll => rw [Mutation.apply, live_removeAll]; exact List.nodup_nil

def dataRun (d : List (Option (K × V))) (events : List (CursorEvent Op)) : List (Option (K × V)) :=
  ((cursorRun (fun d op => some ((mutation op).apply d)) next d 0 events).map fun r => r.2.2).getD []

theorem dataRun_live (h : ((live d).map Prod.fst).Nodup) (events : List (CursorEvent Op)) :
    dataRun mutation d events = (liveRun mutation ⟨[], live d⟩ events).2 := by
  have hallowed : ∀ (events : List (CursorEvent Op)) d,
      Allowed (fun d op => some ((mutation op).apply d)) (fun _ _ => True) d events := by
    intro events
    induction events with
    | nil => exact fun _ => trivial
    | cons event events ih =>
      intro d
      cases event with
      | next => exact ih d
      | call op => exact ⟨trivial, fun d' _ => ih d'⟩
  obtain ⟨_, _, hrun, -⟩ := cursorRun_live mutation (fun d => ((live d).map Prod.fst).Nodup) id
    (fun d op hd _ => ⟨_, rfl, nodup_apply hd (mutation op), rfl⟩) (fun _ _ _ => rfl) (fun _ => id) events d 0 h
    (Nat.zero_le _) (hallowed events d)
  change cursorRun (fun d op => some ((mutation op).apply d)) next d 0 events = _ at hrun
  rw [dataRun, hrun]
  rfl

theorem cursorRun_opened
    (hstep : ∀ s op, Inv s → ok s op → ∃ s', step s op = some s' ∧ Inv s' ∧ data s' = (mutation op).apply (data s))
    (hiter : ∀ s i, Inv s → iterNext s i = next (data s) i)
    (hu : ∀ s, Inv s → ((live (data s)).map Prod.fst).Nodup) {events : List (CursorEvent Op)} {s : S} {l : List (K × V)}
    (hs : Inv s ∧ live (data s) = l) (hok : Allowed step ok s events) :
    ∃ s' i' yields, cursorRun step iterNext s 0 events = some (s', i', yields) ∧
      yields = dataRun mutation (l.map some) events ∧ yields = (liveRun mutation ⟨[], l⟩ events).2 ∧
      Kept (data s) (data s') := by
  obtain ⟨hs, rfl⟩ := hs
  obtain ⟨s', i', hrun, hkept⟩ :=
    cursorRun_live mutation Inv data hstep hiter hu events s 0 hs (Nat.zero_le _) hok
  refine ⟨s', i', _, hrun, ?_, rfl, hkept⟩
  rw [dataRun_live _ (by rw [live_map_some]; exact hu s hs), live_map_some]
  rfl

end Live

end Maligator.LiveList
