import Mathlib
import RailAtlas.Service.Ring

/-!
# The window of a stopwatch

A stopwatch reports on a sliding window: the latest samples, as many as it can hold. `latest` reads
the samples from the ring in the order in which they were taken, oldest first. Recording appends to
this list, and takes its head away once the ring is full. The number of samples, their mean and
their extremes do not depend on the place at which the ring begins.

A ring in memory holds the samples of a stopwatch, whatever is recorded, and no access to one of
its slots is out of range.
-/

namespace RailAtlas

namespace Stopwatch

variable {s : Stopwatch} {d : Duration} {c : Nat}

@[simp] theorem capacity_record : (s.record d).capacity = s.capacity := rfl

theorem next_record : (s.record d).next = (s.next + 1) % s.capacity := rfl

/-! ### Samples in the order in which they were taken -/

/-- The samples that are kept, oldest first. -/
def latest (s : Stopwatch) : List Duration :=
  s.samples.toList.drop s.next ++ s.samples.toList.take s.next

theorem latest_perm (s : Stopwatch) : s.latest.Perm s.samples.toList := by
  have turned :=
    @List.perm_append_comm _ (s.samples.toList.drop s.next) (s.samples.toList.take s.next)
  rwa [List.take_append_drop] at turned

/-- Samples are read from the next place on, and then from the start. -/
theorem latest_of_append {front back : List Duration} (split : s.samples.toList = front ++ back)
    (place : s.next = front.length % s.capacity)
    (fits : front.length + back.length ≤ s.capacity) : s.latest = back ++ front := by
  obtain less | whole := Nat.lt_or_eq_of_le (Nat.le_of_add_right_le fits)
  · rw [latest, split, place, Nat.mod_eq_of_lt less, List.drop_left, List.take_left]
  · have rest : back = [] := List.eq_nil_of_length_eq_zero (by omega)
    rw [latest, split, place, whole, Nat.mod_self, rest, List.append_nil, List.drop_zero,
      List.take_zero, List.append_nil, List.nil_append]

/-- The next place is the first free one, or that of the oldest sample. -/
structure Turning (s : Stopwatch) : Prop where
  size_le : s.samples.size ≤ s.capacity
  next_lt : s.next < s.capacity
  free : s.samples.size < s.capacity → s.next = s.samples.size

namespace Turning

theorem ofCapacity (c : Nat) : (ofCapacity c).Turning :=
  ⟨Nat.zero_le _, Nat.lt_of_lt_of_le Nat.one_pos (Nat.le_max_right c 1), fun _ => rfl⟩

theorem size_record (h : s.Turning) :
    (s.record d).samples.size = min (s.samples.size + 1) s.capacity := by
  have := h.size_le
  rw [record]
  split <;> simp <;> omega

theorem record (h : s.Turning) : (s.record d).Turning := by
  have size := h.size_record (d := d)
  refine ⟨?_, Nat.mod_lt _ (Nat.zero_lt_of_lt h.next_lt), fun room => ?_⟩
  · rw [size]
    exact Nat.min_le_right _ _
  · rw [size, capacity_record] at room
    rw [size, next_record, h.free (by omega), Nat.mod_eq_of_lt (by omega)]
    omega

/-- As long as the ring grows, a new sample is its last one. -/
theorem latest_record_of_lt (h : s.Turning) (room : s.samples.size < s.capacity) :
    (s.record d).latest = (s.latest ++ [d]).rtake s.capacity := by
  have size : s.samples.toList.length = s.samples.size := Array.length_toList
  have before : s.latest = s.samples.toList := by
    refine (latest_of_append (List.append_nil _).symm ?_ ?_).trans (List.nil_append _)
    · rw [h.free room, size, Nat.mod_eq_of_lt room]
    · exact (Nat.add_zero _).trans_le (size ▸ h.size_le)
  have fits : (s.samples.toList ++ [d]).length ≤ s.capacity := by
    rw [List.length_append, size]
    exact room
  have grown : (s.record d).samples.toList = (s.samples.toList ++ [d]) ++ [] := by
    rw [Stopwatch.record, if_pos room, Array.toList_push, List.append_nil]
  have after : (s.record d).latest = s.samples.toList ++ [d] := by
    refine (latest_of_append grown ?_ fits).trans (List.nil_append _)
    rw [next_record, h.free room, List.length_append, size]
    rfl
  rw [after, before, List.rtake, Nat.sub_eq_zero_of_le fits, List.drop_zero]

/-- In a full ring a new sample takes the place of the oldest one. -/
theorem latest_record_of_full (h : s.Turning) (full : s.samples.size = s.capacity) :
    (s.record d).latest = (s.latest ++ [d]).rtake s.capacity := by
  have inside : s.next < s.samples.toList.length := by
    rw [Array.length_toList, full]
    exact h.next_lt
  have before : s.latest = s.samples.toList[s.next] ::
      (s.samples.toList.drop (s.next + 1) ++ s.samples.toList.take s.next) := by
    rw [latest, List.drop_eq_getElem_cons inside, List.cons_append]
  have replaced : (s.record d).samples.toList =
      (s.samples.toList.take s.next ++ [d]) ++ s.samples.toList.drop (s.next + 1) := by
    rw [Stopwatch.record, if_neg full.not_lt, Array.toList_setIfInBounds,
      List.set_eq_take_append_cons_drop, if_pos inside, List.append_assoc, List.singleton_append]
  have after : (s.record d).latest =
      s.samples.toList.drop (s.next + 1) ++ (s.samples.toList.take s.next ++ [d]) := by
    refine latest_of_append replaced ?_ ?_
    · rw [next_record, List.length_append, List.length_take_of_le inside.le]
      rfl
    · rw [← List.length_append, ← replaced, Array.length_toList, h.size_record]
      exact Nat.min_le_right _ _
  have one_more : (s.latest ++ [d]).length - s.capacity = 1 := by
    rw [List.length_append, s.latest_perm.length_eq, Array.length_toList, full,
      List.length_singleton, Nat.add_sub_cancel_left]
  rw [after, List.rtake, one_more, before, List.cons_append, List.drop_one, List.tail_cons,
    List.append_assoc]

/-- Recording appends a sample to those that are kept, and only the latest stay. -/
theorem latest_record (h : s.Turning) :
    (s.record d).latest = (s.latest ++ [d]).rtake s.capacity := by
  obtain room | full := Nat.lt_or_eq_of_le h.size_le
  · exact h.latest_record_of_lt room
  · exact h.latest_record_of_full full

end Turning

/-- Keeping the latest of what was kept and of a new sample is keeping the latest of all. -/
theorem rtake_concat_rtake (ds : List Duration) (d : Duration) (n : Nat) :
    (ds.rtake n ++ [d]).rtake n = (ds ++ [d]).rtake n := by
  cases n with
  | zero => rw [List.rtake_zero, List.rtake_zero]
  | succ n =>
    have again : (ds.rtake (n + 1)).rtake n = ds.rtake n := by
      simp only [List.rtake_eq_reverse_take_reverse, List.reverse_reverse, List.take_take,
        Nat.min_eq_left (Nat.le_succ n)]
    rw [List.rtake_concat_succ, List.rtake_concat_succ, again]

/-- What has become of a new stopwatch: it turns, and it keeps the latest samples. -/
theorem recorded (c : Nat) (ds : List Duration) :
    let s := ds.foldl record (ofCapacity c)
    s.capacity = max c 1 ∧ s.Turning ∧ s.latest = ds.rtake (max c 1) := by
  induction ds using List.reverseRecOn with
  | nil => exact ⟨rfl, .ofCapacity c, (List.rtake_nil _).symm⟩
  | append_singleton ds d ih =>
    obtain ⟨capacity, turning, latest⟩ := ih
    rw [List.foldl_append]
    refine ⟨capacity, turning.record, turning.latest_record.trans ?_⟩
    rw [latest, capacity, rtake_concat_rtake]

/-! ### Reports -/

theorem count_eq (s : Stopwatch) : s.count = s.latest.length := by
  rw [s.latest_perm.length_eq, Array.length_toList, count]

theorem total_eq (s : Stopwatch) : s.total = (s.latest.map (·.nanos)).sum := by
  rw [(s.latest_perm.map _).sum_nat, total, ← Array.foldl_toList, List.sum_eq_foldl_nat,
    List.foldl_map]

theorem max?_eq_of_perm {xs ys : List Nat} (h : xs.Perm ys) : xs.max? = ys.max? :=
  Option.ext fun a => by simp only [List.max?_eq_some_iff, h.mem_iff]

theorem min?_eq_of_perm {xs ys : List Nat} (h : xs.Perm ys) : xs.min? = ys.min? :=
  Option.ext fun a => by simp only [List.min?_eq_some_iff, h.mem_iff]

theorem longest_eq (s : Stopwatch) : s.longest = ⟨(s.latest.map (·.nanos)).max?.getD 0⟩ := by
  rw [max?_eq_of_perm (s.latest_perm.map _), longest, ← Array.foldl_toList,
    ← List.foldl_map (f := Duration.nanos) (g := max), List.foldl_max, Nat.zero_max]

theorem shortest_eq (s : Stopwatch) : s.shortest = ⟨(s.latest.map (·.nanos)).min?.getD 0⟩ := by
  rw [min?_eq_of_perm (s.latest_perm.map _), shortest]
  cases s.samples.toList with
  | nil => rfl
  | cons d rest => rw [List.map_cons, List.min?_cons', List.foldl_map, Option.getD_some]

/-! ### The ring in memory -/

namespace Ring

variable {r : Ring}

/-- A ring in memory holds the samples of a stopwatch. -/
structure Holds (r : Ring) (s : Stopwatch) : Prop where
  size : r.slots.size = s.capacity
  next : r.next = s.next
  filled : r.filled = decide (s.samples.size = s.capacity)
  written : ∀ i < s.samples.size, r.slots[i]? = s.samples[i]?

theorem holds_create (c : Nat) : (create c).Holds (ofCapacity c) := by
  have positive : max c 1 ≠ 0 := Nat.ne_of_gt (Nat.le_max_right c 1)
  refine ⟨Array.size_replicate, rfl, ?_, fun i hi => absurd hi (Nat.not_lt_zero i)⟩
  exact (decide_eq_false (Ne.symm positive)).symm

namespace Holds

theorem count_eq (h : r.Holds s) (turning : s.Turning) : r.count = s.count := by
  rw [Ring.count, h.filled, h.size, h.next, Stopwatch.count]
  have := turning.size_le
  by_cases full : s.samples.size = s.capacity
  · simp [full]
  · simp [full, turning.free (by omega)]

/-- What is read from the ring are the samples of the stopwatch. -/
theorem window?_eq (h : r.Holds s) (turning : s.Turning) : r.window? = some s.samples := by
  have inside : s.samples.size ≤ r.slots.size := h.size ▸ turning.size_le
  have count : r.count = s.samples.size := h.count_eq turning
  rw [window?, count, if_pos inside, Option.some.injEq]
  refine Array.ext_getElem? fun i => ?_
  rw [Array.getElem?_extract, Nat.min_eq_left inside, Nat.sub_zero, Nat.zero_add]
  split
  · next kept => exact h.written i kept
  · next beyond => exact (Array.getElem?_eq_none (Nat.le_of_not_lt beyond)).symm

/-- The flag is set when the place comes round. -/
theorem filled_record (h : r.Holds s) (turning : s.Turning) (d : Duration) :
    (r.filled || (r.next + 1) % r.slots.size == 0) =
      decide ((s.record d).samples.size = (s.record d).capacity) := by
  rw [h.filled, h.size, h.next, turning.size_record, capacity_record]
  obtain room | full := Nat.lt_or_eq_of_le turning.size_le
  · rw [turning.free room, decide_eq_false room.ne, Bool.false_or]
    obtain inside | last := Nat.lt_or_eq_of_le (Nat.succ_le_of_lt room)
    · rw [Nat.mod_eq_of_lt inside, Nat.min_eq_left inside.le, decide_eq_false inside.ne]
      rfl
    · rw [show s.samples.size + 1 = s.capacity from last, Nat.mod_self, Nat.min_self,
        decide_eq_true rfl]
      rfl
  · rw [full, decide_eq_true rfl, Bool.true_or, Nat.min_eq_right (Nat.le_succ _),
      decide_eq_true rfl]

/-- The written slots go on being the samples. -/
theorem written_record (h : r.Holds s) (turning : s.Turning) (d : Duration) (i : Nat)
    (kept : i < (s.record d).samples.size) :
    (r.slots.setIfInBounds r.next d)[i]? = (s.record d).samples[i]? := by
  have inside : s.next < r.slots.size := h.size ▸ turning.next_lt
  rw [turning.size_record] at kept
  rw [h.next, Array.getElem?_setIfInBounds, if_pos inside, Stopwatch.record]
  obtain room | full := Nat.lt_or_eq_of_le turning.size_le
  · rw [if_pos room, turning.free room, Array.getElem?_push]
    split
    · next last => rw [if_pos last.symm]
    · next earlier => rw [if_neg (Ne.symm earlier), h.written i (by omega)]
  · have taken : s.next < s.samples.size := full.symm ▸ turning.next_lt
    rw [if_neg full.not_lt, Array.getElem?_setIfInBounds, if_pos taken]
    split
    · rfl
    · exact h.written i (by omega)

/-- The slot that is written to is there, and ring and stopwatch go on together. -/
theorem record (h : r.Holds s) (turning : s.Turning) (d : Duration) :
    ∃ r', r.record? d = some r' ∧ r'.Holds (s.record d) := by
  have inside : r.next < r.slots.size := h.size ▸ h.next ▸ turning.next_lt
  refine ⟨_, if_pos inside, Array.size_setIfInBounds.trans h.size, ?_,
    h.filled_record turning d, h.written_record turning d⟩
  rw [next_record, h.next, h.size]

/-- No access of a run is out of range. -/
theorem recordAll (h : r.Holds s) (turning : s.Turning) (ds : List Duration) :
    ∃ r', r.recordAll? ds = some r' ∧ r'.Holds (ds.foldl Stopwatch.record s) := by
  induction ds generalizing r s with
  | nil => exact ⟨r, rfl, h⟩
  | cons d ds ih =>
    obtain ⟨next, written, holds⟩ := h.record turning d
    obtain ⟨last, rest, held⟩ := ih holds turning.record
    refine ⟨last, ?_, held⟩
    rw [recordAll?, List.foldlM_cons, written]
    exact rest

end Holds

end Ring

/-- A stopwatch reports on the latest samples, as many as its capacity, and its ring is never read
or written out of range. The mean is rounded down, and given if the sum is a duration. -/
theorem reports_latest (small : c < 2 ^ 32) (ds : List Duration) :
    let window := max c 1
    let recent := ds.rtake window
    let nanos := recent.map (·.nanos)
    ∃ s r, create? c = some s ∧ (Ring.create c).recordAll? ds = some r ∧
      let t := ds.foldl record s
      r.window? = some t.samples ∧ r.count = t.count ∧ t.latest = recent ∧
      t.count = min ds.length window ∧
      t.longest = ⟨nanos.max?.getD 0⟩ ∧ t.shortest = ⟨nanos.min?.getD 0⟩ ∧
      (nanos.sum ≤ Duration.longest.nanos →
        t.average? = some ⟨nanos.sum / min ds.length window⟩) ∧
      (Duration.longest.nanos < nanos.sum → t.average? = none) := by
  intro window recent nanos
  have created : create? c = some (ofCapacity c) := by
    have limit : 2 ^ 32 ≤ capacityLimit := by decide
    rw [create?, if_neg (Nat.not_lt.mpr (small.le.trans limit))]
  obtain ⟨-, turning, latest⟩ := recorded c ds
  obtain ⟨r, written, holds⟩ := (Ring.holds_create c).recordAll (.ofCapacity c) ds
  refine ⟨ofCapacity c, r, created, written, ?_⟩
  intro t
  have count : t.count = min ds.length window := by
    rw [count_eq, latest, List.rtake, List.length_drop]
    omega
  refine ⟨holds.window?_eq turning, holds.count_eq turning, latest, count, ?_, ?_, ?_, ?_⟩
  · rw [longest_eq, latest]
  · rw [shortest_eq, latest]
  · intro fits
    rw [average?, total_eq, latest, count, if_neg (Nat.not_lt.mpr fits)]
  · intro exceeds
    rw [average?, total_eq, latest, if_pos exceeds]

/-- Three samples in a ring of two: the oldest one has fallen out. -/
theorem reports_latest_of_three : 2 < 2 ^ 32 ∧
    let ds : List Duration := [.ofMillis 100, .ofMillis 20, .ofMillis 30]
    ∃ s, create? 2 = some s ∧ (ds.foldl record s).latest = [.ofMillis 20, .ofMillis 30] ∧
      (ds.foldl record s).average? = some (.ofMillis 25) := by
  refine ⟨by decide, ?_⟩
  obtain ⟨s, r, created, -, -, -, latest, -, -, -, average, -⟩ := @reports_latest 2 (by decide)
    [.ofMillis 100, .ofMillis 20, .ofMillis 30]
  exact ⟨s, created, latest, average (by decide)⟩

end Stopwatch

end RailAtlas
