import Akua.Lib.Table

/-! A worklist over named nodes: take the next name; a new one is looked up and expanded into a value and
    further names, which are taken before those that wait. It ends when no name is left, with the values
    of all names that can be reached. Some names are passed over, as if they had been met before. -/

namespace Worklist

variable {κ γ α : Type} [DecidableEq κ]

/-- The nodes that have no value yet. -/
def open_ (nodes : Table κ γ) (found : Table κ α) : List κ := nodes.keys.filter fun k => k ∉ found.keys

theorem open_set_lt {nodes : Table κ γ} {found : Table κ α} {k : κ} (value : α) (hk : k ∈ nodes.keys)
    (hnew : k ∉ found.keys) : (open_ nodes (found.set k value)).length < (open_ nodes found).length := by
  have hsub : open_ nodes (found.set k value) = (open_ nodes found).filter fun m => m ≠ k := by
    rw [open_, open_, List.filter_filter]
    refine List.filter_congr fun m _ => ?_
    rw [Table.keys_set, if_neg hnew]
    simp [not_or, and_comm]
  rw [hsub]
  exact List.length_filter_lt_length_iff_exists.mpr
    ⟨k, List.mem_filter.mpr ⟨hk, by simpa using hnew⟩, by simp⟩

/-- The worklist; it fails with the first name that is no node. -/
def run (nodes : Table κ γ) (expand : γ → α × List κ) (pass : κ → Bool) (found : Table κ α) :
    List κ → Except κ (Table κ α)
  | [] => .ok found
  | k :: pending =>
    if _hk : k ∈ found.keys ∨ pass k = true then run nodes expand pass found pending
    else
      match _hnode : nodes.get? k with
      | none => .error k
      | some node => run nodes expand pass (found.set k (expand node).1) ((expand node).2 ++ pending)
termination_by pending => ((open_ nodes found).length, pending.length)
decreasing_by
  · exact Prod.Lex.right _ (Nat.lt_succ_self _)
  · have hmem : k ∈ nodes.keys := by
      by_contra hmem
      rw [Table.get?_eq_none.mpr hmem] at _hnode
      cases _hnode
    exact Prod.Lex.left _ _ (open_set_lt _ hmem (not_or.mp _hk).1)

/-- What can be reached from the first names. -/
inductive Reached (nodes : Table κ γ) (expand : γ → α × List κ) (start : List κ) : κ → Prop where
  | start {k : κ} (h : k ∈ start) : Reached nodes expand start k
  | next {k m : κ} {node : γ} (hk : Reached nodes expand start k) (hnode : nodes.get? k = some node)
      (hm : m ∈ (expand node).2) : Reached nodes expand start m

/-- Every name that was met has a value, waits or is passed over. -/
structure Inv (nodes : Table κ γ) (expand : γ → α × List κ) (pass : κ → Bool) (start : List κ)
    (found : Table κ α) (pending : List κ) : Prop where
  started : ∀ k ∈ start, pass k = true ∨ k ∈ found.keys ∨ k ∈ pending
  valued : ∀ k value, found.get? k = some value → pass k = false ∧ ∃ node, nodes.get? k = some node ∧
    value = (expand node).1 ∧ ∀ m ∈ (expand node).2, pass m = true ∨ m ∈ found.keys ∨ m ∈ pending
  reached : ∀ k, k ∈ found.keys ∨ k ∈ pending → Reached nodes expand start k

section Run

variable {nodes : Table κ γ} {expand : γ → α × List κ} {pass : κ → Bool} {start : List κ} {found : Table κ α}
  {k : κ} {pending : List κ}

@[simp] theorem run_nil : run nodes expand pass found [] = .ok found := by rw [run]

theorem run_skip (h : k ∈ found.keys ∨ pass k = true) :
    run nodes expand pass found (k :: pending) = run nodes expand pass found pending := by rw [run, dif_pos h]

theorem run_missing (h : ¬(k ∈ found.keys ∨ pass k = true)) (hnode : nodes.get? k = none) :
    run nodes expand pass found (k :: pending) = .error k := by
  rw [run, dif_neg h]
  split
  · rfl
  · rename_i hsome
    rw [hnode] at hsome
    cases hsome

theorem run_new (h : ¬(k ∈ found.keys ∨ pass k = true)) {node : γ} (hnode : nodes.get? k = some node) :
    run nodes expand pass found (k :: pending) =
      run nodes expand pass (found.set k (expand node).1) ((expand node).2 ++ pending) := by
  rw [run, dif_neg h]
  split
  · rename_i hnone
    rw [hnode] at hnone
    cases hnone
  · rename_i node' hsome
    obtain rfl := Option.some.inj (hnode.symm.trans hsome)
    rfl

theorem inv_start : Inv nodes expand pass start .empty start where
  started _ h := .inr (.inr h)
  valued _ _ h := by cases h
  reached _ h := .start (h.resolve_left List.not_mem_nil)

/-- A name that is not new. -/
theorem Inv.skip (h : Inv nodes expand pass start found (k :: pending))
    (hk : k ∈ found.keys ∨ pass k = true) : Inv nodes expand pass start found pending := by
  have hmet : ∀ m, pass m = true ∨ m ∈ found.keys ∨ m ∈ k :: pending →
      pass m = true ∨ m ∈ found.keys ∨ m ∈ pending := by
    rintro m (hm | hm | hm)
    · exact .inl hm
    · exact .inr (.inl hm)
    · rcases List.mem_cons.mp hm with rfl | hm
      · exact hk.elim (fun h => .inr (.inl h)) .inl
      · exact .inr (.inr hm)
  refine ⟨fun m hm => hmet m (h.started m hm), fun m value hm => ?_,
    fun m hm => h.reached m (hm.imp id (List.mem_cons_of_mem _))⟩
  obtain ⟨hpass, node, hnode, hvalue, hnext⟩ := h.valued m value hm
  exact ⟨hpass, node, hnode, hvalue, fun n hn => hmet n (hnext n hn)⟩

/-- A new name and its node. -/
theorem Inv.add (h : Inv nodes expand pass start found (k :: pending)) (hnew : k ∉ found.keys)
    (hpass : pass k = false) {node : γ} (hnode : nodes.get? k = some node) :
    Inv nodes expand pass start (found.set k (expand node).1) ((expand node).2 ++ pending) := by
  have hkeys : (found.set k (expand node).1).keys = found.keys ++ [k] := by rw [Table.keys_set, if_neg hnew]
  have hmet : ∀ m, pass m = true ∨ m ∈ found.keys ∨ m ∈ k :: pending →
      pass m = true ∨ m ∈ (found.set k (expand node).1).keys ∨ m ∈ (expand node).2 ++ pending := by
    rintro m (hm | hm | hm)
    · exact .inl hm
    · exact .inr (.inl (by rw [hkeys]; exact List.mem_append_left _ hm))
    · rcases List.mem_cons.mp hm with rfl | hm
      · exact .inr (.inl (by rw [hkeys]; exact List.mem_append_right _ List.mem_cons_self))
      · exact .inr (.inr (List.mem_append_right _ hm))
  refine ⟨fun m hm => hmet m (h.started m hm), fun m value hm => ?_, fun m hm => ?_⟩
  · rw [Table.get?_set] at hm
    split at hm
    · rename_i hkm
      subst hkm
      exact ⟨hpass, node, hnode, (Option.some.inj hm).symm, fun n hn => .inr (.inr (List.mem_append_left _ hn))⟩
    · obtain ⟨hpm, node', hnode', hvalue, hnext⟩ := h.valued m value hm
      exact ⟨hpm, node', hnode', hvalue, fun n hn => hmet n (hnext n hn)⟩
  · have hk : Reached nodes expand start k := h.reached k (.inr List.mem_cons_self)
    rw [hkeys, List.mem_append, List.mem_append, List.mem_singleton] at hm
    rcases hm with (hm | rfl) | hm | hm
    · exact h.reached m (.inl hm)
    · exact hk
    · exact .next hk hnode hm
    · exact h.reached m (.inr (List.mem_cons_of_mem _ hm))

theorem run_inv {result : Table κ α} (h : Inv nodes expand pass start found pending)
    (hrun : run nodes expand pass found pending = .ok result) : Inv nodes expand pass start result [] := by
  induction found, pending using run.induct nodes expand pass with
  | case1 found =>
    rw [run_nil] at hrun
    obtain rfl := Except.ok.inj hrun
    exact h
  | case2 found k pending hk ih =>
    rw [run_skip hk] at hrun
    exact ih (h.skip hk) hrun
  | case3 found k pending hk hnode =>
    rw [run_missing hk hnode] at hrun
    cases hrun
  | case4 found k pending hk node hnode ih =>
    rw [run_new hk hnode] at hrun
    obtain ⟨hnew, hpass⟩ := not_or.mp hk
    exact ih (h.add hnew (Bool.eq_false_iff.mpr hpass) hnode) hrun

/-- Where no name that can be reached is passed over, the result has the values of those and no others. -/
theorem mem_keys_iff {result : Table κ α} (hrun : run nodes expand pass .empty start = .ok result)
    (hpass : ∀ m, Reached nodes expand start m → pass m = false) {m : κ} :
    m ∈ result.keys ↔ Reached nodes expand start m := by
  have hinv := run_inv inv_start hrun
  refine ⟨fun hm => hinv.reached m (.inl hm), fun hm => ?_⟩
  have hkey : ∀ n, Reached nodes expand start n → (pass n = true ∨ n ∈ result.keys ∨ n ∈ ([] : List κ)) →
      n ∈ result.keys := by
    rintro n hn (h | h | h)
    · rw [hpass n hn] at h
      cases h
    · exact h
    · cases h
  induction hm with
  | start hstart => exact hkey _ (.start hstart) (hinv.started _ hstart)
  | @next k m node hk hnode hm ih =>
    obtain ⟨value, hvalue⟩ := Option.isSome_iff_exists.mp (Table.has_iff.mpr ih)
    obtain ⟨-, node', hnode', -, hnext⟩ := hinv.valued _ _ hvalue
    obtain rfl := Option.some.inj (hnode.symm.trans hnode')
    exact hkey m (.next hk hnode hm) (hnext m hm)

end Run

end Worklist
