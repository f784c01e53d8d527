import NdnRepo.Lib.Steps

/-!
# Systems that do what others do

Each event of a system is some events of another, none of them perhaps.  `translate` makes
a run of the other out of a run of the first.  If every admissible event keeps the two
systems related and its translation is admissible, so it is of whole runs (`simulates`).
-/

namespace Steps

variable {σ ε τ δ : Type}

/-- The events of another system that a run consists of. -/
def translate (step : σ → ε → σ) (as : σ → ε → List δ) : σ → List ε → List δ
  | _, [] => []
  | s, e :: events => as s e ++ translate step as (step s e) events

variable {step : σ → ε → σ} {ok : σ → ε → Prop} {step' : τ → δ → τ} {ok' : τ → δ → Prop}

/-- A run in two parts is admissible if both parts are. -/
theorem admits_append : ∀ {s : σ} {events events' : List ε},
    Admits step ok s (events ++ events') ↔
      Admits step ok s events ∧ Admits step ok (run step s events) events'
  | _, [], _ => by simp [Admits]
  | s, e :: events, events' => by
      have ih := @admits_append (step s e) events events'
      rw [List.cons_append, Admits, Admits, ih, run_cons, and_assoc]

/-- Systems stay related over a run, if they do over each event and its translation. -/
theorem simulates {as : σ → ε → List δ} {rel : σ → τ → Prop}
    (hstep : ∀ s t e, rel s t → ok s e →
      Admits step' ok' t (as s e) ∧ rel (step s e) (run step' t (as s e))) :
    ∀ {s : σ} {t : τ} {events : List ε}, rel s t → Admits step ok s events →
      Admits step' ok' t (translate step as s events) ∧
        rel (run step s events) (run step' t (translate step as s events))
  | _, _, [], hrel, _ => ⟨trivial, hrel⟩
  | s, t, e :: events, hrel, hok => by
      obtain ⟨hfirst, hnext⟩ := hstep s t e hrel hok.1
      obtain ⟨hrest, hend⟩ := simulates hstep hnext hok.2
      refine ⟨admits_append.mpr ⟨hfirst, hrest⟩, ?_⟩
      rw [translate, run_append]
      exact hend

end Steps
