import Mathlib.Data.List.Nodup
import Mathlib.Logic.Function.Basic

/-! Transactions on one shared value. Each reads the value once, and later may write what it made of
    what it read. A write does not look at the value again, so a write in between is lost; where
    no other transaction writes between the read and the write of one, the value is what running
    the transactions in the order of their writes gives (`serial`). -/

namespace Transactions

variable {ι V : Type}

/-- Where a transaction stands. -/
inductive Status (V : Type) where
  | idle
  /-- It has read `seen` and will write `leaves`. -/
  | pending (seen leaves : V)
  | committed
  | failed

inductive Act where
  | read
  | write
  | quiet
deriving DecidableEq

/-- Running transactions one after the other. -/
inductive Sequence (makes : ι → V → V → Prop) : List ι → V → V → Prop
  | nil {v : V} : Sequence makes [] v v
  | snoc {order : List ι} {i : ι} {u v w : V} (before : Sequence makes order u v) (h : makes i v w) :
      Sequence makes (order ++ [i]) u w

theorem Sequence.mono {makes makes' : ι → V → V → Prop} (hsub : ∀ i u v, makes i u v → makes' i u v)
    {order : List ι} {u v : V} (h : Sequence makes order u v) : Sequence makes' order u v := by
  induction h with
  | nil => exact .nil
  | snoc _ hmakes ih => exact .snoc ih (hsub _ _ _ hmakes)

theorem sequence_nil {makes : ι → V → V → Prop} {u v : V} (h : Sequence makes [] u v) : u = v := by
  generalize hl : ([] : List ι) = l at h
  cases h with
  | nil => rfl
  | snoc before hmakes => exact absurd hl.symm (by simp)

/-- The last transaction of a sequence. -/
theorem sequence_concat {makes : ι → V → V → Prop} {order : List ι} {i : ι} {u w : V}
    (h : Sequence makes (order ++ [i]) u w) : ∃ v, Sequence makes order u v ∧ makes i v w := by
  generalize hl : order ++ [i] = l at h
  cases h with
  | nil => exact absurd hl (by simp)
  | snoc before hmakes =>
    obtain ⟨rfl, hlast⟩ := List.append_inj' hl rfl
    obtain rfl := (List.cons.inj hlast).1
    exact ⟨_, before, hmakes⟩

/-- `i` has read. -/
def HasRead (trace : List (ι × Act)) (i : ι) : Prop :=
  ∃ before after, trace = before ++ (i, .read) :: after

/-- Another transaction has written since `i` read. -/
def Stale (trace : List (ι × Act)) (i : ι) : Prop :=
  ∃ before after, trace = before ++ (i, .read) :: after ∧ ∃ j, j ≠ i ∧ (j, .write) ∈ after

/-- Some transaction writes after another one has written since it read. -/
def Overlapped (trace : List (ι × Act)) : Prop :=
  ∃ i before after, trace = before ++ (i, .write) :: after ∧ Stale before i

theorem HasRead.append {trace : List (ι × Act)} {i : ι} (h : HasRead trace i)
    (more : List (ι × Act)) : HasRead (trace ++ more) i := by
  obtain ⟨before, after, rfl⟩ := h
  exact ⟨before, after ++ more, by simp⟩

theorem Stale.append {trace : List (ι × Act)} {i : ι} (h : Stale trace i) (more : List (ι × Act)) :
    Stale (trace ++ more) i := by
  obtain ⟨before, after, rfl, j, hj, hwrite⟩ := h
  exact ⟨before, after ++ more, by simp, j, hj, List.mem_append_left _ hwrite⟩

/-- A write makes every other reader stale. -/
theorem HasRead.stale {trace : List (ι × Act)} {i j : ι} (h : HasRead trace i) (hj : j ≠ i) :
    Stale (trace ++ [(j, .write)]) i := by
  obtain ⟨before, after, rfl⟩ := h
  exact ⟨before, after ++ [(j, .write)], by simp, j, hj, by simp⟩

theorem Overlapped.append {trace : List (ι × Act)} (h : Overlapped trace) (more : List (ι × Act)) :
    Overlapped (trace ++ more) := by
  obtain ⟨i, before, after, rfl, hstale⟩ := h
  exact ⟨i, before, after ++ more, by simp, hstale⟩

/-- A transaction by itself has no other to overlap with. -/
theorem not_overlapped [Subsingleton ι] (trace : List (ι × Act)) : ¬ Overlapped trace := by
  rintro ⟨i, before, after, rfl, _, _, rfl, j, hj, -⟩
  exact hj (Subsingleton.elim j i)

/-- Transactions that run one after the other do not overlap. -/
theorem not_overlapped_append {first second : List (ι × Act)} {i j : ι} (hfirst : ∀ x ∈ first, x.1 = i)
    (hsecond : ∀ x ∈ second, x.1 = j) : ¬ Overlapped (first ++ second) := by
  rintro ⟨k, _, after, heq, before, _, rfl, l, hl, hwrite⟩
  obtain ⟨a, b, rfl⟩ := List.append_of_mem hwrite
  -- where the first ends: before the other's write, or behind it
  have hsplit : first ++ second =
      (before ++ (k, .read) :: a ++ [(l, .write)]) ++ (b ++ (k, .write) :: after) := by
    rw [heq]
    simp
  have hin : ∀ more, first = before ++ (k, .read) :: a ++ [(l, .write)] ++ more → l = k := by
    rintro more rfl
    exact (hfirst (l, .write) (by simp)).trans (hfirst (k, .read) (by simp)).symm
  rcases List.append_eq_append_iff.mp hsplit with ⟨rest, hbefore, hrest⟩ | ⟨rest, hbefore, -⟩
  · rcases List.eq_nil_or_concat rest with rfl | ⟨rest, last, rfl⟩
    · exact hl (hin [] (by rw [hbefore, List.append_nil, List.append_nil]))
    · rw [List.concat_eq_append] at hbefore hrest
      rw [← List.append_assoc] at hbefore
      obtain rfl := (List.cons.inj (List.append_inj' hbefore rfl).2).1
      subst hrest
      exact hl ((hsecond (l, .write) (by simp)).trans (hsecond (k, .write) (by simp)).symm)
  · exact hl (hin rest hbefore)

variable [DecidableEq ι]

/-- The runs from `start`, by what each transaction may make of the value it reads. A transaction
    that leaves the value as it is, is committed by its read. -/
inductive Runs (makes : ι → V → V → Prop) (start : V) :
    List (ι × Act) → V → (ι → Status V) → Prop
  | start : Runs makes start [] start fun _ => .idle
  | quiet {trace : List (ι × Act)} {v : V} {status : ι → Status V} {i : ι} {next : Status V}
      (before : Runs makes start trace v status) (h : next = status i ∨ next = .failed) :
      Runs makes start (trace ++ [(i, .quiet)]) v (Function.update status i next)
  | look {trace : List (ι × Act)} {v : V} {status : ι → Status V} {i : ι}
      (before : Runs makes start trace v status) (hidle : status i = .idle) (h : makes i v v) :
      Runs makes start (trace ++ [(i, .read)]) v (Function.update status i .committed)
  | plan {trace : List (ι × Act)} {v leaves : V} {status : ι → Status V} {i : ι}
      (before : Runs makes start trace v status) (hidle : status i = .idle) (h : makes i v leaves) :
      Runs makes start (trace ++ [(i, .read)]) v (Function.update status i (.pending v leaves))
  | refuse {trace : List (ι × Act)} {v : V} {status : ι → Status V} {i : ι}
      (before : Runs makes start trace v status) (hidle : status i = .idle) :
      Runs makes start (trace ++ [(i, .read)]) v (Function.update status i .failed)
  | write {trace : List (ι × Act)} {v seen leaves : V} {status : ι → Status V} {i : ι}
      (before : Runs makes start trace v status) (h : status i = .pending seen leaves) :
      Runs makes start (trace ++ [(i, .write)]) leaves (Function.update status i .committed)

/-- What holds in a run without overlaps: the value comes from the committed transactions in
    sequence, and one that will write has read the value as it still is, or is stale. -/
structure Serial (makes : ι → V → V → Prop) (start : V) (trace : List (ι × Act)) (v : V)
    (status : ι → Status V) : Prop where
  sequence : ∃ order : List ι, order.Nodup ∧ (∀ i, status i = .committed → i ∈ order) ∧
    (∀ i ∈ order, status i = .committed ∨ status i = .failed) ∧ Sequence makes order start v
  pending : ∀ i seen leaves, status i = .pending seen leaves →
    makes i seen leaves ∧ HasRead trace i ∧ (v = seen ∨ Stale trace i)

variable {makes : ι → V → V → Prop} {start : V}

/-- A step that leaves the value as it is. -/
theorem Serial.kept {trace : List (ι × Act)} {v : V} {status : ι → Status V} {i : ι} {act : Act}
    (h : Serial makes start trace v status) {next : Status V}
    (hcommitted : next = .committed → status i = .committed)
    (hlost : status i = .committed → next = .committed ∨ next = .failed)
    (hfailed : status i = .failed → next = .failed)
    (hpending : ∀ seen leaves, next = .pending seen leaves → makes i seen leaves ∧
      HasRead (trace ++ [(i, act)]) i ∧ (v = seen ∨ Stale (trace ++ [(i, act)]) i)) :
    Serial makes start (trace ++ [(i, act)]) v (Function.update status i next) := by
  obtain ⟨⟨order, hnodup, hin, hout, hseq⟩, hpend⟩ := h
  refine ⟨⟨order, hnodup, fun j hj => ?_, fun j hj => ?_, hseq⟩, fun j seen leaves hj => ?_⟩
  · by_cases hji : j = i
    · subst hji
      rw [Function.update_self] at hj
      exact hin j (hcommitted hj)
    · rw [Function.update_of_ne hji] at hj
      exact hin j hj
  · by_cases hji : j = i
    · subst hji
      rw [Function.update_self]
      rcases hout j hj with hc | hf
      · exact hlost hc
      · exact Or.inr (hfailed hf)
    · rw [Function.update_of_ne hji]
      exact hout j hj
  · by_cases hji : j = i
    · subst hji
      rw [Function.update_self] at hj
      exact hpending seen leaves hj
    · rw [Function.update_of_ne hji] at hj
      obtain ⟨hmakes, hread, hfresh⟩ := hpend j seen leaves hj
      exact ⟨hmakes, hread.append _, hfresh.imp_right fun hs => hs.append _⟩

/-- A step that commits a transaction. -/
theorem Serial.commit {trace : List (ι × Act)} {v w : V} {status : ι → Status V} {i : ι} {act : Act}
    (h : Serial makes start trace v status) (hnot : status i ≠ .committed ∧ status i ≠ .failed)
    (hmakes : makes i v w)
    (hothers : ∀ j, j ≠ i → ∀ seen, HasRead trace j → (v = seen ∨ Stale trace j) →
      (w = seen ∨ Stale (trace ++ [(i, act)]) j)) :
    Serial makes start (trace ++ [(i, act)]) w (Function.update status i .committed) := by
  obtain ⟨⟨order, hnodup, hin, hout, hseq⟩, hpend⟩ := h
  have hnew : i ∉ order := fun hi => (hout i hi).elim hnot.1 hnot.2
  refine ⟨⟨order ++ [i], ?_, fun j hj => ?_, fun j hj => ?_, hseq.snoc hmakes⟩, fun j seen leaves hj => ?_⟩
  · rw [List.nodup_append]
    refine ⟨hnodup, List.nodup_singleton i, ?_⟩
    rintro a ha b hb rfl
    exact hnew (List.mem_singleton.mp hb ▸ ha)
  · by_cases hji : j = i
    · subst hji
      simp
    · rw [Function.update_of_ne hji] at hj
      exact List.mem_append_left _ (hin j hj)
  · by_cases hji : j = i
    · subst hji
      rw [Function.update_self]
      exact Or.inl rfl
    · rw [Function.update_of_ne hji]
      exact hout j ((List.mem_append.mp hj).resolve_right (by simpa using hji))
  · by_cases hji : j = i
    · subst hji
      rw [Function.update_self] at hj
      cases hj
    · rw [Function.update_of_ne hji] at hj
      obtain ⟨hm, hread, hfresh⟩ := hpend j seen leaves hj
      exact ⟨hm, hread.append _, hothers j hji seen hread hfresh⟩

/-- In every state of a run without overlaps, the value is what running the committed transactions in
    some order gives. -/
theorem serial {trace : List (ι × Act)} {v : V} {status : ι → Status V}
    (h : Runs makes start trace v status) (hoverlap : ¬ Overlapped trace) :
    Serial makes start trace v status := by
  induction h with
  | start =>
    refine ⟨⟨[], List.nodup_nil, ?_, ?_, Sequence.nil⟩, ?_⟩
    · intro i hi
      cases hi
    · intro i hi
      cases hi
    · intro i seen leaves hi
      cases hi
  | @quiet trace v status i next before hnext ih =>
    have hserial := ih fun ho => hoverlap (ho.append _)
    refine hserial.kept (fun hc => ?_) (fun hc => ?_) (fun hf => ?_) fun seen leaves hp => ?_
    · rcases hnext with hn | hn
      · rw [← hn, hc]
      · rw [hn] at hc
        cases hc
    · exact hnext.imp_left fun hn => hn.trans hc
    · exact hnext.elim (fun hn => hn.trans hf) id
    · rcases hnext with hn | hn
      · obtain ⟨hmakes, hread, hfresh⟩ := hserial.pending i seen leaves (hn.symm.trans hp)
        exact ⟨hmakes, hread.append _, hfresh.imp_right fun hs => hs.append _⟩
      · rw [hn] at hp
        cases hp
  | @look trace v status i before hidle hmakes ih =>
    refine (ih fun ho => hoverlap (ho.append _)).commit (by simp [hidle]) hmakes ?_
    exact fun j _ seen _ hfresh => hfresh.imp_right fun hs => hs.append _
  | @plan trace v leaves status i before hidle hmakes ih =>
    refine (ih fun ho => hoverlap (ho.append _)).kept (fun hc => by cases hc)
      (fun hc => by rw [hidle] at hc; cases hc) (fun hf => by rw [hidle] at hf; cases hf) ?_
    intro seen leaves' hp
    cases hp
    exact ⟨hmakes, ⟨trace, [], rfl⟩, Or.inl rfl⟩
  | @refuse trace v status i before hidle ih =>
    refine (ih fun ho => hoverlap (ho.append _)).kept (fun hc => by cases hc)
      (fun hc => by rw [hidle] at hc; cases hc) (fun _ => rfl) ?_
    intro seen leaves hp
    cases hp
  | @write trace v seen leaves status i before hpending ih =>
    have hserial := ih fun ho => hoverlap (ho.append _)
    obtain ⟨hmakes, hread, hfresh⟩ := hserial.pending i seen leaves hpending
    have hseen : v = seen := by
      refine hfresh.resolve_right fun hstale => hoverlap ?_
      exact ⟨i, trace, [], rfl, hstale⟩
    refine hserial.commit (by simp [hpending]) (hseen ▸ hmakes) ?_
    intro j hj seen' hread' _
    exact Or.inr (hread'.stale hj.symm)

/-- Once all transactions are committed, the value is what running them all in some order gives. -/
theorem serial_all {trace : List (ι × Act)} {v : V} {status : ι → Status V}
    (h : Runs makes start trace v status) (hoverlap : ¬ Overlapped trace)
    (hall : ∀ i, status i = .committed) :
    ∃ order : List ι, order.Nodup ∧ (∀ i, i ∈ order) ∧ Sequence makes order start v := by
  obtain ⟨order, hnodup, hin, -, hseq⟩ := (serial h hoverlap).sequence
  exact ⟨order, hnodup, fun i => hin i (hall i), hseq⟩

end Transactions
