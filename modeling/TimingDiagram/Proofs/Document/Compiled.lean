import TimingDiagram.Document.Signal
import TimingDiagram.Proofs.Outcome

/-! The outcome of compiling a signal: that of reading its wave and then that of resolving
its tokens, whatever is told on the way. -/
namespace TimingDiagram

namespace Signal

variable {K : Type}

theorem outcome_lexed (s : Signal K) : s.lexed.outcome = lex s.wave s.node s.name none := by
  rw [lexed]
  simp only [Logged.outcome_bind, Logged.outcome_liftM, Logged.outcome_tell, Logged.outcome_pure,
    ok_bind]
  cases lex s.wave s.node s.name none <;> rfl

theorem outcome_resolved (s : Signal K) (tokens : List Token) :
    (s.resolved tokens).outcome =
      Segment.resolve tokens s.period s.data (some (s.length tokens.length)) s.name := by
  rw [resolved]
  simp only [Logged.outcome_bind, Logged.outcome_liftM, Logged.outcome_tell, Logged.outcome_pure,
    ok_bind]
  cases Segment.resolve tokens s.period s.data (some (s.length tokens.length)) s.name <;> rfl

/-- The tokens and the segments are found one after the other, and nothing else fails. -/
theorem outcome_compile (s : Signal K) :
    s.compile.outcome = do
      let tokens ← lex s.wave s.node s.name none
      let segments ←
        Segment.resolve tokens s.period s.data (some (s.length tokens.length)) s.name
      return ⟨s, tokens, segments, s.length tokens.length⟩ := by
  rw [compile]
  simp only [Logged.outcome_bind, outcome_lexed, outcome_resolved, Logged.outcome_pure]
  rfl

theorem compile_eq_ok {s : Signal K} {tokens : List Token} {segments : List Segment}
    (hTokens : lex s.wave s.node s.name none = .ok tokens)
    (hSegments : Segment.resolve tokens s.period s.data (some (s.length tokens.length)) s.name =
      .ok segments) :
    s.compile.outcome = .ok ⟨s, tokens, segments, s.length tokens.length⟩ := by
  rw [outcome_compile, hTokens, ok_bind, hSegments]
  rfl

/-- What a compiled signal holds. -/
theorem of_compile {s : Signal K} {c : Compiled K} (h : s.compile.outcome = .ok c) :
    c.signal = s ∧ lex s.wave s.node s.name none = .ok c.tokens ∧
      Segment.resolve c.tokens s.period s.data (some c.length) s.name = .ok c.segments ∧
      c.length = s.length c.tokens.length := by
  rw [outcome_compile] at h
  obtain ⟨tokens, hTokens, h⟩ := bind_eq_ok_iff.mp h
  obtain ⟨segments, hSegments, h⟩ := bind_eq_ok_iff.mp h
  cases h
  exact ⟨rfl, hTokens, hSegments, rfl⟩

end Signal
end TimingDiagram
