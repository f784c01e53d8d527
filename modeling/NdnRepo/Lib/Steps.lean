import Mathlib

/-!
# Runs of a step function

A system takes a step at each event.  A run is a list of events, and its states are
those before, between and after them.  What every admissible step preserves holds in
all states of an admissible run (`invariant`).  Where a step preserves it exactly if
it is admissible, it holds in all states exactly of the admissible runs
(`forall_states_iff`).

Events may bring work, and others use it up.  So no more of these can happen than work was
brought for (`count_le`).

A step may also answer.  Two systems that answer alike in related states, and stay
related, answer alike in every admissible run (`outputs_eq`).  The history of a run is
its events with their answers, and what is said of a state by its history is shown
event by event (`history_invariant`).
-/

namespace Steps

variable {σ ε : Type} (step : σ → ε → σ) (ok : σ → ε → Prop)

/-- The state after some events. -/
def run (s : σ) (events : List ε) : σ := events.foldl step s

/-- The states of a run. -/
def states : σ → List ε → List σ
  | s, [] => [s]
  | s, e :: events => s :: states (step s e) events

/-- Every event is admissible in the state it meets. -/
def Admits : σ → List ε → Prop
  | _, [] => True
  | s, e :: events => ok s e ∧ Admits (step s e) events

instance [∀ s e, Decidable (ok s e)] : ∀ s events, Decidable (Admits step ok s events)
  | _, [] => inferInstanceAs (Decidable True)
  | s, e :: events =>
      haveI := instDecidableAdmits (step s e) events
      inferInstanceAs (Decidable (ok s e ∧ Admits step ok (step s e) events))

variable {step ok} {inv : σ → Prop}

@[simp] theorem run_nil (s : σ) : run step s [] = s := rfl

@[simp] theorem run_cons (s : σ) (e : ε) (events : List ε) :
    run step s (e :: events) = run step (step s e) events := rfl

theorem run_append (s : σ) (events events' : List ε) :
    run step s (events ++ events') = run step (run step s events) events' :=
  List.foldl_append

/-- The last state of a run is one of them. -/
theorem run_mem_states : ∀ (s : σ) (events : List ε), run step s events ∈ states step s events
  | s, [] => List.mem_singleton_self s
  | s, e :: events => List.mem_cons_of_mem s (run_mem_states (step s e) events)

/-- A run is admissible if each of its events is, after those before it. -/
theorem admits_iff : ∀ {s : σ} {events : List ε}, Admits step ok s events ↔
    ∀ before e rest, events = before ++ e :: rest → ok (run step s before) e
  | s, [] => by simp [Admits]
  | s, e :: events => by
      have ih := @admits_iff (step s e) events
      rw [Admits, ih]
      constructor
      · rintro ⟨hok, hrest⟩ before e' rest heq
        cases before with
        | nil =>
            obtain ⟨rfl, rfl⟩ := List.cons.inj heq
            exact hok
        | cons first before =>
            obtain ⟨rfl, rfl⟩ := List.cons.inj heq
            exact hrest before e' rest rfl
      · intro h
        exact ⟨h [] e events rfl, fun before e' rest heq => h (e :: before) e' rest (heq ▸ rfl)⟩

/-- Two ways to admit events admit the same runs, if they agree wherever an invariant
holds that admissible steps preserve. -/
theorem admits_congr {ok' : σ → ε → Prop} (hagree : ∀ s e, inv s → (ok s e ↔ ok' s e))
    (hstep : ∀ s e, inv s → ok s e → inv (step s e)) :
    ∀ {s : σ} {events : List ε}, inv s → (Admits step ok s events ↔ Admits step ok' s events)
  | _, [], _ => Iff.rfl
  | s, e :: events, hs => by
      rw [Admits, Admits, ← hagree s e hs]
      exact and_congr_right fun hok => admits_congr hagree hstep (hstep s e hs hok)

/-- A run is admissible in another way too, if each of its events is wherever an invariant holds. -/
theorem Admits.imp {ok' : σ → ε → Prop} (himp : ∀ s e, inv s → ok s e → ok' s e)
    (hstep : ∀ s e, inv s → ok s e → inv (step s e)) :
    ∀ {s : σ} {events : List ε}, inv s → Admits step ok s events → Admits step ok' s events
  | _, [], _, _ => trivial
  | s, e :: _, hs, ⟨hok, hrest⟩ =>
      ⟨himp s e hs hok, Admits.imp himp hstep (hstep s e hs hok) hrest⟩

/-- A run that is admissible in two ways is so in both at once. -/
theorem Admits.and {ok' : σ → ε → Prop} :
    ∀ {s : σ} {events : List ε}, Admits step ok s events → Admits step ok' s events →
      Admits step (fun s e => ok s e ∧ ok' s e) s events
  | _, [], _, _ => trivial
  | _, _ :: _, ⟨hok, hrest⟩, ⟨hok', hrest'⟩ => ⟨⟨hok, hok'⟩, hrest.and hrest'⟩

/-- What admissible steps preserve holds in every state of an admissible run. -/
theorem invariant (hstep : ∀ s e, inv s → ok s e → inv (step s e)) :
    ∀ {s : σ} {events : List ε}, inv s → Admits step ok s events →
      ∀ t ∈ states step s events, inv t
  | s, [], hs, _ => by
      intro t ht
      rw [List.mem_singleton.mp ht]
      exact hs
  | s, e :: events, hs, hok => by
      intro t ht
      rcases List.mem_cons.mp ht with rfl | ht
      · exact hs
      · exact invariant hstep (hstep s e hs hok.1) hok.2 t ht

/-- It holds in no other run, if no other step preserves it. -/
theorem forall_states_iff (hstep : ∀ s e, inv s → (inv (step s e) ↔ ok s e)) :
    ∀ (s : σ) (events : List ε),
      (∀ t ∈ states step s events, inv t) ↔ inv s ∧ Admits step ok s events
  | s, [] => by simp [states, Admits]
  | s, e :: events => by
      have ih := forall_states_iff hstep (step s e) events
      rw [states, List.forall_mem_cons, ih, Admits]
      constructor
      · rintro ⟨hs, hnext, hrest⟩
        exact ⟨hs, (hstep s e hs).mp hnext, hrest⟩
      · rintro ⟨hs, hok, hrest⟩
        exact ⟨hs, (hstep s e hs).mpr hok, hrest⟩

/-- So it is of runs whose events are known to be admissible in another way. -/
theorem forall_states_iff_of_admits {known : σ → ε → Prop}
    (hstep : ∀ s e, inv s → known s e → (inv (step s e) ↔ ok s e)) :
    ∀ {s : σ} {events : List ε}, inv s → Admits step known s events →
      ((∀ t ∈ states step s events, inv t) ↔ Admits step ok s events)
  | s, [], hs, _ => iff_of_true (fun _ ht => (List.mem_singleton.mp ht) ▸ hs) trivial
  | s, e :: events, hs, ⟨hknown, hrest⟩ => by
      have hfirst := hstep s e hs hknown
      rw [states, List.forall_mem_cons, and_iff_right hs, Admits]
      constructor
      · intro h
        have hnext : inv (step s e) := h _ (by cases events <;> exact List.mem_cons_self ..)
        exact ⟨hfirst.mp hnext, (forall_states_iff_of_admits hstep hnext hrest).mp h⟩
      · rintro ⟨hok, hoks⟩
        exact (forall_states_iff_of_admits hstep (hfirst.mpr hok) hrest).mpr hoks

/-! ## Work -/

section Work

variable (step)

/-- How many events of a run count. -/
def count (counts : σ → ε → Bool) : σ → List ε → ℕ
  | _, [] => 0
  | s, e :: events => (counts s e).toNat + count counts (step s e) events

variable {step}

/-- Events that count use up work, which was there at first or which events bring. -/
theorem count_le {counts : σ → ε → Bool} {work : σ → ℕ} {brings : ε → ℕ}
    (hstep : ∀ s e, (counts s e).toNat + work (step s e) ≤ work s + brings e) :
    ∀ (s : σ) (events : List ε),
      count step counts s events + work (run step s events) ≤ work s + (events.map brings).sum
  | s, [] => by simp [count]
  | s, e :: events => by
      have hfirst := hstep s e
      have hrest := count_le hstep (step s e) events
      rw [count, run_cons, List.map_cons, List.sum_cons]
      omega

end Work

/-! ## Answers -/

section Answers

variable {τ α : Type}

/-- What a run answers, event by event. -/
def outputs (step : σ → ε → α × σ) : σ → List ε → List α
  | _, [] => []
  | s, e :: events => (step s e).1 :: outputs step (step s e).2 events

/-- Related systems answer alike, if each admissible event is answered alike and leaves
them related. -/
theorem outputs_eq {step : σ → ε → α × σ} {step' : τ → ε → α × τ} {rel : σ → τ → Prop}
    (hstep : ∀ s t e, rel s t → ok s e →
      (step s e).1 = (step' t e).1 ∧ rel (step s e).2 (step' t e).2) :
    ∀ {s : σ} {t : τ} {events : List ε}, rel s t →
      Admits (fun s e => (step s e).2) ok s events → outputs step s events = outputs step' t events
  | _, _, [], _, _ => rfl
  | s, t, e :: events, hrel, hok => by
      obtain ⟨hanswer, hnext⟩ := hstep s t e hrel hok.1
      rw [outputs, outputs, hanswer, outputs_eq hstep hnext hok.2]

/-- The events of a run with their answers. -/
def history (step : σ → ε → α × σ) : σ → List ε → List (ε × α)
  | _, [] => []
  | s, e :: events => (e, (step s e).1) :: history step (step s e).2 events

/-- What the start has of the empty history, and each event adds to, holds of the state
after a run and its history. -/
theorem history_invariant {step : σ → ε → α × σ} {inv : List (ε × α) → σ → Prop}
    (hstep : ∀ past s e, inv past s → inv (past ++ [(e, (step s e).1)]) (step s e).2) :
    ∀ {past : List (ε × α)} {s : σ} (events : List ε), inv past s →
      inv (past ++ history step s events) (run (fun s e => (step s e).2) s events)
  | past, s, [], h => by simpa [history] using h
  | past, s, e :: events, h => by
      have hnext := history_invariant hstep events (hstep past s e h)
      rw [List.append_assoc] at hnext
      exact hnext

end Answers

end Steps
