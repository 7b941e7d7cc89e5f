import Mathlib.Data.List.Induction
import Mathlib.Tactic.TypeStar

/-!
# Runs of a Labelled Transition Relation

A component that reacts to events is a relation `step : σ → ε → σ → Prop` on its states.
`Run step s es t` says that the events `es` can lead from `s` to `t`; every prefix of a
run is a run, so a statement about the end of every run is a statement about every state
on the way.

* `Run.invariant`: what every step preserves holds at the end of every run.
* `run_iff_foldlM`: the runs of a partial step function can be computed.
* `Interleaves`: two sequences of events mixed, each in its own order.
* `Along`: what each entry of a history is to the entries before it.
-/

namespace Runs

variable {σ ε : Type*}

/-- The events `es` lead from `s` to `t`, one step for each event. -/
inductive Run (step : σ → ε → σ → Prop) : σ → List ε → σ → Prop
  | nil (s : σ) : Run step s [] s
  | snoc {s t u : σ} {es : List ε} {e : ε} :
      Run step s es t → step t e u → Run step s (es ++ [e]) u

/-- **The invariant rule**: what every step preserves holds at the end of every run. -/
theorem Run.invariant {step : σ → ε → σ → Prop} {I : σ → Prop}
    (hstep : ∀ {s e t}, I s → step s e t → I t) {s t : σ} {es : List ε}
    (h : Run step s es t) (hs : I s) : I t := by
  induction h with
  | nil => exact hs
  | snoc _ hlast ih => exact hstep ih hlast

/-- A run under stronger steps is a run under weaker ones. -/
theorem Run.mono {step step' : σ → ε → σ → Prop}
    (h : ∀ {s e t}, step s e t → step' s e t) {s t : σ} {es : List ε}
    (hrun : Run step s es t) : Run step' s es t := by
  induction hrun with
  | nil => exact Run.nil _
  | snoc _ hlast ih => exact ih.snoc (h hlast)

/-- What is seen of a run is a run. -/
theorem Run.map {τ : Type*} {step : σ → ε → σ → Prop} {step' : τ → ε → τ → Prop} (f : σ → τ)
    (h : ∀ {s e t}, step s e t → step' (f s) e (f t)) {s t : σ} {es : List ε}
    (hrun : Run step s es t) : Run step' (f s) es (f t) := by
  induction hrun with
  | nil => exact Run.nil _
  | snoc _ hlast ih => exact ih.snoc (h hlast)

/-- A run whose events all meet a guard. -/
theorem Run.guard {step : σ → ε → σ → Prop} {P : ε → Prop} {s t : σ} {es : List ε}
    (hrun : Run step s es t) (h : ∀ e ∈ es, P e) :
    Run (fun s e t => step s e t ∧ P e) s es t := by
  induction hrun with
  | nil => exact Run.nil _
  | snoc _ hlast ih =>
      exact (ih fun e he => h e (List.mem_append_left _ he)).snoc ⟨hlast, h _ (by simp)⟩

/-- Runs, one after the other. -/
theorem Run.append {step : σ → ε → σ → Prop} {s t u : σ} {es es' : List ε}
    (h : Run step s es t) (h' : Run step t es' u) : Run step s (es ++ es') u := by
  induction h' with
  | nil => simpa using h
  | snoc _ hlast ih =>
      rw [← List.append_assoc]
      exact ih.snoc hlast

/-- A run from its first step. -/
theorem Run.cons {step : σ → ε → σ → Prop} {s t u : σ} {e : ε} {es : List ε}
    (hstep : step s e t) (h : Run step t es u) : Run step s (e :: es) u :=
  ((Run.nil s).snoc hstep).append h

/-- Nothing happens in an empty run. -/
theorem Run.eq_of_nil {step : σ → ε → σ → Prop} {s t : σ} (h : Run step s [] t) : t = s := by
  generalize hes : ([] : List ε) = es at h
  cases h with
  | nil => rfl
  | snoc => exact absurd hes (by simp)

/-- A run begins with the step of its first event. -/
theorem Run.of_cons {step : σ → ε → σ → Prop} {s u : σ} {e : ε} {es : List ε}
    (h : Run step s (e :: es) u) : ∃ t, step s e t ∧ Run step t es u := by
  generalize hes : e :: es = es' at h
  induction h generalizing es with
  | nil => exact absurd hes (by simp)
  | snoc hrun hlast ih =>
      rename_i es' e'
      cases es' with
      | nil =>
          obtain ⟨rfl, rfl⟩ : e = e' ∧ es = [] := by simpa using hes
          exact ⟨_, hrun.eq_of_nil ▸ hlast, Run.nil _⟩
      | cons e'' es'' =>
          obtain ⟨rfl, rfl⟩ : e = e'' ∧ es = es'' ++ [e'] := by simpa using hes
          obtain ⟨t, hfirst, hrest⟩ := ih rfl
          exact ⟨t, hfirst, hrest.snoc hlast⟩

/-- A run ends with the step of its last event. -/
theorem Run.of_concat {step : σ → ε → σ → Prop} {s u : σ} {es : List ε} {e : ε}
    (h : Run step s (es ++ [e]) u) : ∃ t, Run step s es t ∧ step t e u := by
  generalize hes : es ++ [e] = es' at h
  cases h with
  | nil => exact absurd hes (by simp)
  | snoc hrun hlast =>
      obtain ⟨rfl, heq⟩ := List.append_inj' hes rfl
      obtain rfl := List.head_eq_of_cons_eq heq
      exact ⟨_, hrun, hlast⟩

/-- A run over two sequences is two runs. -/
theorem Run.of_append {step : σ → ε → σ → Prop} {s u : σ} {es es' : List ε}
    (h : Run step s (es ++ es') u) : ∃ t, Run step s es t ∧ Run step t es' u := by
  induction es' using List.reverseRecOn generalizing u with
  | nil => exact ⟨u, by simpa using h, Run.nil u⟩
  | append_singleton es' e ih =>
      rw [← List.append_assoc] at h
      obtain ⟨t', hinit, hlast⟩ := h.of_concat
      obtain ⟨t, hfirst, hrest⟩ := ih hinit
      exact ⟨t, hfirst, hrest.snoc hlast⟩

/-- Two runs over the same events, side by side. -/
theorem Run.zip {τ : Type*} {step : σ → ε → σ → Prop} {step' : τ → ε → τ → Prop} {s t : σ}
    {s' t' : τ} {es : List ε} (h : Run step s es t) (h' : Run step' s' es t') :
    Run (fun x e y => step x.1 e y.1 ∧ step' x.2 e y.2) (s, s') es (t, t') := by
  induction h generalizing t' with
  | nil => exact h'.eq_of_nil ▸ Run.nil _
  | snoc _ hlast ih =>
      obtain ⟨u', hrun', hlast'⟩ := h'.of_concat
      exact (ih hrun').snoc ⟨hlast, hlast'⟩

/-- The runs of a step function are the computations of its fold. -/
theorem run_iff_foldlM {f : σ → ε → Option σ} {s t : σ} {es : List ε} :
    Run (fun s e t => f s e = some t) s es t ↔ es.foldlM f s = some t := by
  constructor
  · intro h
    induction h with
    | nil => rfl
    | snoc _ hlast ih =>
        rw [List.foldlM_append, ih]
        simpa using hlast
  · induction es using List.reverseRecOn generalizing t with
    | nil =>
        intro h
        obtain rfl : s = t := Option.some.inj h
        exact Run.nil s
    | append_singleton es e ih =>
        intro h
        rw [List.foldlM_append] at h
        obtain ⟨u, hu, ht⟩ := Option.bind_eq_some_iff.mp h
        exact (ih hu).snoc (by simpa using ht)

/-- A computation of the fold of a guarded step is a run whose steps all meet the guard. -/
theorem run_of_foldlM_guard {f : σ → ε → Option σ} {P : σ → ε → Prop}
    [∀ s e, Decidable (P s e)] {s t : σ} {es : List ε}
    (h : es.foldlM (fun s e => if P s e then f s e else none) s = some t) :
    Run (fun s e t => f s e = some t ∧ P s e) s es t := by
  refine (run_iff_foldlM.mpr h).mono fun {s e t} hstep => ?_
  by_cases hP : P s e
  · rw [if_pos hP] at hstep
    exact ⟨hstep, hP⟩
  · rw [if_neg hP] at hstep
    exact absurd hstep (by simp)

/-! ### Interleavings -/

/-- `zs` runs through `xs` and through `ys`, each in its order. -/
inductive Interleaves {α : Type*} : List α → List α → List α → Prop
  | nil : Interleaves [] [] []
  | left {x : α} {xs ys zs : List α} : Interleaves xs ys zs → Interleaves (x :: xs) ys (x :: zs)
  | right {y : α} {xs ys zs : List α} : Interleaves xs ys zs → Interleaves xs (y :: ys) (y :: zs)

/-- What is left of a mixture is a mixture of what is left. -/
theorem Interleaves.filterMap {α β : Type*} (f : α → Option β) {xs ys zs : List α}
    (h : Interleaves xs ys zs) :
    Interleaves (xs.filterMap f) (ys.filterMap f) (zs.filterMap f) := by
  induction h with
  | nil => exact .nil
  | @left x xs ys zs _ ih =>
      cases hx : f x with
      | none => simpa [List.filterMap_cons, hx] using ih
      | some y => simpa [List.filterMap_cons, hx] using ih.left
  | @right y xs ys zs _ ih =>
      cases hy : f y with
      | none => simpa [List.filterMap_cons, hy] using ih
      | some x => simpa [List.filterMap_cons, hy] using ih.right

/-! ### Labelled sequences -/

section Labels

variable {κ α β : Type*} [DecidableEq κ]

/-- The entries with a label. -/
def part (k : κ) (l : List (κ × α)) : List α :=
  l.filterMap fun x => if x.1 = k then some x.2 else none

theorem part_append (k : κ) (l l' : List (κ × α)) : part k (l ++ l') = part k l ++ part k l' :=
  List.filterMap_append

theorem part_cons_self (k : κ) (a : α) (l : List (κ × α)) : part k ((k, a) :: l) = a :: part k l :=
  List.filterMap_cons_some (if_pos rfl)

theorem part_cons_of_ne {k k' : κ} (h : k' ≠ k) (a : α) (l : List (κ × α)) :
    part k ((k', a) :: l) = part k l :=
  List.filterMap_cons_none (if_neg h)

theorem part_map {γ : Type*} (k k' : κ) (f : γ → α) (l : List γ) :
    part k (l.map fun x => (k', f x)) = if k' = k then l.map f else [] := by
  by_cases hk : k' = k
  · subst hk
    rw [if_pos rfl]
    induction l with
    | nil => rfl
    | cons x l ih => rw [List.map_cons, part_cons_self, ih, List.map_cons]
  · rw [if_neg hk]
    induction l with
    | nil => rfl
    | cons x l ih => rw [List.map_cons, part_cons_of_ne hk, ih]

theorem mem_part {k : κ} {a : α} {l : List (κ × α)} : a ∈ part k l ↔ (k, a) ∈ l := by
  rw [part, List.mem_filterMap]
  constructor
  · rintro ⟨⟨k', a'⟩, hmem, heq⟩
    split at heq
    · rename_i hk
      exact hk ▸ Option.some.inj heq ▸ hmem
    · exact absurd heq (by simp)
  · exact fun h => ⟨(k, a), h, if_pos rfl⟩

/-- A sequence mixes the entries with a label and the others. -/
theorem interleaves_part (k : κ) (l : List (κ × α)) :
    Interleaves (part k l) ((l.filter (·.1 ≠ k)).map Prod.snd) (l.map Prod.snd) := by
  induction l with
  | nil => exact .nil
  | cons x l ih =>
      obtain ⟨k', a⟩ := x
      by_cases hk : k' = k
      · subst hk
        rw [part_cons_self, List.filter_cons_of_neg (by simp)]
        exact ih.left
      · rw [part_cons_of_ne hk, List.filter_cons_of_pos (by simpa using hk)]
        exact ih.right

/-- Marks on the entries of each label are marks on the sequence. -/
theorem exists_marks (l : List (κ × α)) {marks : κ → List (α × β)}
    (h : ∀ k, (marks k).map Prod.fst = part k l) :
    ∃ marked : List (κ × α × β), marked.map (fun x => (x.1, x.2.1)) = l ∧
      ∀ k, part k marked = marks k := by
  induction l generalizing marks with
  | nil => exact ⟨[], rfl, fun k => (List.map_eq_nil_iff.mp (h k)).symm⟩
  | cons x l ih =>
      obtain ⟨k, a⟩ := x
      have hk := h k
      rw [part_cons_self] at hk
      obtain ⟨⟨a', b⟩, rest, hmarks, rfl, hrest⟩ := List.map_eq_cons_iff.mp hk
      obtain ⟨marked, rfl, hmarked⟩ := @ih (Function.update marks k rest) fun k' => by
        by_cases hk' : k' = k
        · subst hk'
          rw [Function.update_self, hrest]
        · rw [Function.update_of_ne hk', h k', part_cons_of_ne (Ne.symm hk')]
      refine ⟨(k, a', b) :: marked, rfl, fun k' => ?_⟩
      by_cases hk' : k' = k
      · subst hk'
        rw [part_cons_self, hmarked, Function.update_self, hmarks]
      · rw [part_cons_of_ne (Ne.symm hk'), hmarked, Function.update_of_ne hk']

/-- What the marks of a sequence tell of the entries with a label. -/
theorem part_filterMap (k : κ) (l : List (κ × α × Option β)) :
    part k (l.filterMap fun x => x.2.2.map (x.1, ·)) = (part k l).filterMap Prod.snd := by
  induction l with
  | nil => rfl
  | cons x l ih =>
      obtain ⟨k', a, mark⟩ := x
      by_cases hk : k' = k
      · subst hk
        cases mark <;> simp only [List.filterMap_cons, Option.map_none, Option.map_some,
          part_cons_self, ih]
      · cases mark <;> simp only [List.filterMap_cons, Option.map_none, Option.map_some,
          part_cons_of_ne hk, ih]

end Labels

/-! ### Histories -/

/-- Each entry of a history stands in the relation `P` to the entries before it. -/
def Along (P : List ε → ε → Prop) (h : List ε) : Prop :=
  ∀ before x after, h = before ++ x :: after → P before x

theorem along_nil (P : List ε → ε → Prop) : Along P [] := by
  intro before x after h
  exact absurd h (by simp)

/-- A history grows by an entry that stands in the relation to all of it. -/
theorem along_concat {P : List ε → ε → Prop} {h : List ε} {x : ε} :
    Along P (h ++ [x]) ↔ Along P h ∧ P h x := by
  constructor
  · intro hP
    refine ⟨fun before y after heq => hP before y (after ++ [x]) (by rw [heq]; simp), ?_⟩
    exact hP h x [] rfl
  · rintro ⟨hP, hx⟩ before y after heq
    rcases List.eq_nil_or_concat after with rfl | ⟨after, z, rfl⟩
    · obtain ⟨rfl, hxy⟩ := List.append_inj' heq rfl
      obtain rfl := List.singleton_inj.mp hxy
      exact hx
    · have hsplit : h ++ [x] = (before ++ y :: after) ++ [z] := by
        rw [heq, List.concat_eq_append, List.append_assoc, List.cons_append]
      obtain ⟨hh, -⟩ := List.append_inj' hsplit rfl
      exact hP before y after hh

/-- A history grows by several entries. -/
theorem Along.append {P : List ε → ε → Prop} {h l : List ε} (hP : Along P h)
    (hl : ∀ before x after, l = before ++ x :: after → P (h ++ before) x) : Along P (h ++ l) := by
  induction l using List.reverseRecOn with
  | nil => simpa using hP
  | append_singleton l x ih =>
      rw [← List.append_assoc, along_concat]
      refine ⟨ih fun before y after heq => hl before y (after ++ [x]) (by simp [heq]), ?_⟩
      exact hl l x [] rfl

/-- Every entry stands in the relation to some part of the history before it. -/
theorem Along.exists_before {P : List ε → ε → Prop} {h : List ε} (hP : Along P h) {x : ε}
    (hx : x ∈ h) : ∃ before after, h = before ++ x :: after ∧ P before x := by
  obtain ⟨before, after, rfl⟩ := List.append_of_mem hx
  exact ⟨before, after, rfl, hP before x after rfl⟩

theorem filterMap_concat_none {τ : Type*} {f : ε → Option τ} (h : List ε) {x : ε}
    (hx : f x = none) : (h ++ [x]).filterMap f = h.filterMap f := by
  rw [List.filterMap_append, List.filterMap_cons_none hx, List.filterMap_nil, List.append_nil]

theorem filterMap_concat_some {τ : Type*} {f : ε → Option τ} (h : List ε) {x : ε} {t : τ}
    (hx : f x = some t) : (h ++ [x]).filterMap f = h.filterMap f ++ [t] := by
  rw [List.filterMap_append, List.filterMap_cons_some hx, List.filterMap_nil]

/-- A history in which `f` has more than `n` values has an entry behind the first `n`. -/
theorem exists_nth_filterMap {τ : Type*} (f : ε → Option τ) {h : List ε} {n : ℕ}
    (hn : n < (h.filterMap f).length) :
    ∃ before x after, h = before ++ x :: after ∧ (f x).isSome = true ∧
      (before.filterMap f).length = n := by
  induction h using List.reverseRecOn with
  | nil => exact absurd hn (by simp)
  | append_singleton h x ih =>
      by_cases hlt : n < (h.filterMap f).length
      · obtain ⟨before, y, after, rfl, hy, hbefore⟩ := ih hlt
        exact ⟨before, y, after ++ [x], by simp, hy, hbefore⟩
      · cases hx : f x with
        | none =>
            rw [filterMap_concat_none h hx] at hn
            exact absurd hn hlt
        | some t =>
            rw [filterMap_concat_some h hx, List.length_append, List.length_singleton] at hn
            exact ⟨h, x, [], rfl, by rw [hx]; rfl, by omega⟩

/-- Entries with the same value of `f` are one entry, where no value occurs twice. -/
theorem eq_of_nodup_filterMap {τ : Type*} {f : ε → Option τ} {h : List ε}
    (hnodup : (h.filterMap f).Nodup) {x y : ε} (hx : x ∈ h) (hy : y ∈ h) {t : τ}
    (hfx : f x = some t) (hfy : f y = some t) : x = y := by
  induction h with
  | nil => exact absurd hx List.not_mem_nil
  | cons z h ih =>
      have hrest : (h.filterMap f).Nodup :=
        hnodup.sublist ((List.sublist_cons_self z h).filterMap f)
      have hhead : ∀ w ∈ h, f z = some t → f w ≠ some t := by
        intro w hw hz hfw
        rw [List.filterMap_cons_some hz] at hnodup
        exact (List.nodup_cons.mp hnodup).1 (List.mem_filterMap.mpr ⟨w, hw, hfw⟩)
      rcases List.mem_cons.mp hx with rfl | hxh
      · rcases List.mem_cons.mp hy with rfl | hyh
        · rfl
        · exact absurd hfy (hhead y hyh hfx)
      · rcases List.mem_cons.mp hy with rfl | hyh
        · exact absurd hfx (hhead x hxh hfy)
        · exact ih hrest hxh hyh

end Runs
