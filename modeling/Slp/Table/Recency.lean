import Mathlib.Data.List.Nodup
import Mathlib.Data.Nat.Notation

/-!
# Recency

What a holder of `n` places keeps of a log, when each event brings its key to the front.

* `recency log`: the keys of the log, each once, the most recent first;
* `recent n log`: the first `n` of them;
* `recent_of_room`, `recent_of_full`, `recent_of_mem`: **the `n` most recent keys after one more
  event**, for a key that is new while there is room, for one that is new while there is none, and
  for one that is held.
-/

namespace Slp

namespace Table

variable {α : Type*} [DecidableEq α]

/-- The keys of a log, each once, the most recent first; the newest event is in front. -/
def recency : List α → List α
  | [] => []
  | k :: log => k :: (recency log).erase k

/-- The most recent keys of a log. -/
def recent (n : ℕ) (log : List α) : List α := (recency log).take n

variable {n : ℕ} {k : α} {log : List α}

theorem nodup_recency (log : List α) : (recency log).Nodup := by
  induction log with
  | nil => exact List.nodup_nil
  | cons k log ih =>
    rw [recency, List.nodup_cons]
    exact ⟨ih.not_mem_erase, ih.erase k⟩

/-- Keys that came once each. -/
theorem recency_of_nodup (hlog : log.Nodup) : recency log = log := by
  induction log with
  | nil => rfl
  | cons k log ih =>
    rw [List.nodup_cons] at hlog
    rw [recency, ih hlog.2, List.erase_of_not_mem hlog.1]

theorem nodup_recent (n : ℕ) (log : List α) : (recent n log).Nodup :=
  (nodup_recency log).sublist (List.take_sublist n _)

theorem length_recent_le (n : ℕ) (log : List α) : (recent n log).length ≤ n :=
  List.length_take_le n _

theorem recent_cons (n : ℕ) (k : α) (log : List α) :
    recent (n + 1) (k :: log) = k :: ((recency log).erase k).take n := rfl

/-- A key that is not among the first ones is struck out without touching them. -/
theorem take_erase {l : List α} (hk : k ∉ l.take (n + 1)) : (l.erase k).take n = l.take n := by
  have hk' : k ∉ l.take n := fun h => hk (List.take_subset_take_left l (Nat.le_succ n) h)
  conv_lhs => rw [← List.take_append_drop n l, List.erase_append_right _ hk']
  rcases Nat.le_total n l.length with hle | hle
  · exact List.take_left' (List.length_take_of_le hle)
  · rw [List.drop_eq_nil_of_le hle, List.erase_nil, List.append_nil, List.take_take, Nat.min_self]

/-- A new key while there is room. -/
theorem recent_of_room (hk : k ∉ recent n log) (hroom : (recent n log).length < n) :
    recent n (k :: log) = k :: recent n log := by
  obtain ⟨m, rfl⟩ : ∃ m, n = m + 1 := ⟨n - 1, by omega⟩
  have hlen : (recency log).length ≤ m := by
    rw [recent, List.length_take] at hroom
    omega
  rw [recent_cons, take_erase hk, recent, List.take_of_length_le hlen,
    List.take_of_length_le (Nat.le_succ_of_le hlen)]

/-- A new key while there is no room. -/
theorem recent_of_full (hpos : 0 < n) (hk : k ∉ recent n log) (hfull : (recent n log).length = n) :
    recent n (k :: log) = k :: (recent n log).dropLast := by
  obtain ⟨m, rfl⟩ : ∃ m, n = m + 1 := ⟨n - 1, by omega⟩
  rw [recent_cons, take_erase hk, List.dropLast_eq_take, hfull, recent, List.take_take]
  congr 2
  omega

/-- A key that is held. -/
theorem recent_of_mem (hk : k ∈ recent n log) :
    recent n (k :: log) = k :: (recent n log).filter fun x => x ≠ k := by
  have hfilter : (recent n log).filter (fun x => x ≠ k) = (recent n log).erase k := by
    rw [(nodup_recent n log).erase_eq_filter]
    exact List.filter_congr fun x _ => by rw [bne, beq_eq_decide, decide_not]
  rw [hfilter]
  obtain ⟨m, rfl⟩ : ∃ m, n = m + 1 :=
    ⟨n - 1, by have := List.length_pos_of_mem hk; have := length_recent_le n log; omega⟩
  have hlen := List.length_erase_of_mem hk
  rw [recent_cons, recent]
  rw [recent] at hlen hk
  conv_lhs => rw [← List.take_append_drop (m + 1) (recency log), List.erase_append_left _ hk]
  rcases Nat.le_total (m + 1) (recency log).length with hle | hle
  · rw [List.length_take_of_le hle, Nat.add_sub_cancel] at hlen
    rw [List.take_left' hlen]
  · rw [List.drop_eq_nil_of_le hle, List.append_nil, List.take_of_length_le]
    rw [hlen, List.length_take]
    omega

end Table

end Slp
