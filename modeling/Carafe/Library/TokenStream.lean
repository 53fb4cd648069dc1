import Mathlib.Data.List.Infix
import Mathlib.Data.List.Basic

/-!
# Readers that consume one token at a time

A machine recognises tokens at the front of its input. In each state no token is
a proper prefix of another, so the input determines which token comes next, and
whether more input follows makes no difference to a token that is already
complete. What a machine reads is therefore the same however its input is cut:
two readings of one stream extend each other.
-/

namespace TokenStream

universe u v w

/-- `token s c` says that `c` is one complete token in state `s`. -/
structure Machine (α : Type u) (σ : Type v) (ω : Type w) where
  token : σ → List α → Prop
  next : σ → List α → σ × Option ω
  nonempty : ∀ s c, token s c → c ≠ []
  prefixFree : ∀ s c d, token s c → token s d → c <+: d → c = d

namespace Machine

variable {α : Type u} {σ : Type v} {ω : Type w} (m : Machine α σ ω)

/-- Whole tokens take one state to another; the outputs are collected in order. -/
inductive Reads : σ → List α → List ω → σ → Prop where
  | done (s : σ) : Reads s [] [] s
  | step {s s₁ s' : σ} {c e : List α} {out : Option ω} {ws : List ω} (token : m.token s c)
      (next : m.next s c = (s₁, out)) (rest : Reads s₁ e ws s') :
      Reads s (c ++ e) (out.toList ++ ws) s'

/-- No complete token stands at the front of the input. -/
def Stuck (s : σ) (u : List α) : Prop := ∀ c, m.token s c → ¬ c <+: u

variable {m}

theorem token_unique {s : σ} {c d u : List α} (hc : m.token s c) (hd : m.token s d)
    (hcu : c <+: u) (hdu : d <+: u) : c = d := by
  rcases List.prefix_or_prefix_of_prefix hcu hdu with h | h
  · exact m.prefixFree s c d hc hd h
  · exact (m.prefixFree s d c hd hc h).symm

namespace Reads

theorem single {s s' : σ} {c : List α} {out : Option ω} (token : m.token s c)
    (next : m.next s c = (s', out)) : m.Reads s c out.toList s' := by
  simpa using Reads.step token next (Reads.done s')

theorem trans {s s₁ s₂ : σ} {e f : List α} {ws xs : List ω} (h₁ : m.Reads s e ws s₁)
    (h₂ : m.Reads s₁ f xs s₂) : m.Reads s (e ++ f) (ws ++ xs) s₂ := by
  induction h₁ with
  | done => exact h₂
  | step token next _ ih =>
    rw [List.append_assoc, List.append_assoc]
    exact .step token next (ih h₂)

theorem nil_inv {s s' : σ} {ws : List ω} (h : m.Reads s [] ws s') : ws = [] ∧ s' = s := by
  generalize he : ([] : List α) = e at h
  cases h with
  | done => exact ⟨rfl, rfl⟩
  | step token next rest =>
    have hc := m.nonempty _ _ token
    exact False.elim (hc (List.append_eq_nil_iff.mp he.symm).1)

/-- What is read of a nonempty input starts with a token. -/
theorem cons_inv {s s' : σ} {e : List α} {ws : List ω} (h : m.Reads s e ws s') (hne : e ≠ []) :
    ∃ c f s₁ out xs, e = c ++ f ∧ ws = out.toList ++ xs ∧ m.token s c ∧
      m.next s c = (s₁, out) ∧ m.Reads s₁ f xs s' := by
  cases h with
  | done => exact False.elim (hne rfl)
  | step token next rest => exact ⟨_, _, _, _, _, rfl, rfl, token, next, rest⟩

/-- Of two readings of one input the longer one goes on where the shorter ends. -/
theorem compare {s s₁ s₂ : σ} {e f u : List α} {ws xs : List ω} (h₁ : m.Reads s e ws s₁)
    (h₂ : m.Reads s f xs s₂) (heu : e <+: u) (hfu : f <+: u) :
    (∃ g ys, f = e ++ g ∧ xs = ws ++ ys ∧ m.Reads s₁ g ys s₂) ∨
    (∃ g ys, e = f ++ g ∧ ws = xs ++ ys ∧ m.Reads s₂ g ys s₁) := by
  induction h₁ generalizing f u xs with
  | done s => exact Or.inl ⟨f, xs, rfl, rfl, h₂⟩
  | @step s t s₁ c e out ws token next rest ih =>
    by_cases hf : f = []
    · subst hf
      obtain ⟨rfl, rfl⟩ := h₂.nil_inv
      exact Or.inr ⟨c ++ e, out.toList ++ ws, rfl, rfl, .step token next rest⟩
    · obtain ⟨d, f, t', out', xs, rfl, rfl, token', next', rest'⟩ := h₂.cons_inv hf
      have hcd : c = d := token_unique token token' ((List.prefix_append c e).trans heu)
        ((List.prefix_append d f).trans hfu)
      subst hcd
      obtain ⟨v, rfl⟩ := (List.prefix_append c e).trans heu
      obtain ⟨rfl, rfl⟩ : t = t' ∧ out = out' := by
        have := next.symm.trans next'
        simpa using this
      rw [List.prefix_append_right_inj] at heu hfu
      rcases ih rest' heu hfu with ⟨g, ys, rfl, rfl, hg⟩ | ⟨g, ys, rfl, rfl, hg⟩
      · exact Or.inl ⟨g, ys, (List.append_assoc _ _ _).symm, (List.append_assoc _ _ _).symm, hg⟩
      · exact Or.inr ⟨g, ys, (List.append_assoc _ _ _).symm, (List.append_assoc _ _ _).symm, hg⟩

theorem unique {s s₁ s₂ : σ} {e : List α} {ws xs : List ω} (h₁ : m.Reads s e ws s₁)
    (h₂ : m.Reads s e xs s₂) : ws = xs ∧ s₁ = s₂ := by
  rcases h₁.compare h₂ List.prefix_rfl List.prefix_rfl with ⟨g, ys, he, hw, hg⟩ | ⟨g, ys, he, hw, hg⟩
  · obtain rfl : g = [] := by simpa using he
    obtain ⟨rfl, rfl⟩ := hg.nil_inv
    exact ⟨by simpa using hw.symm, rfl⟩
  · obtain rfl : g = [] := by simpa using he
    obtain ⟨rfl, rfl⟩ := hg.nil_inv
    exact ⟨by simpa using hw, rfl⟩

/-- A reading of a longer input passes through the state a shorter one reached. -/
theorem suffix {s s₁ s₂ : σ} {e g : List α} {ws xs : List ω} (h₁ : m.Reads s e ws s₁)
    (h₂ : m.Reads s (e ++ g) xs s₂) : ∃ ys, xs = ws ++ ys ∧ m.Reads s₁ g ys s₂ := by
  rcases h₁.compare h₂ (List.prefix_append e g) List.prefix_rfl with
    ⟨g', ys, he, rfl, hg⟩ | ⟨g', ys, he, hw, hg⟩
  · obtain rfl : g = g' := by simpa using he
    exact ⟨ys, rfl, hg⟩
  · have hlen := congrArg List.length he
    simp only [List.length_append] at hlen
    obtain rfl : g' = [] := List.length_eq_zero_iff.mp (by omega)
    obtain rfl : g = [] := List.length_eq_zero_iff.mp (by omega)
    obtain ⟨rfl, rfl⟩ := hg.nil_inv
    exact ⟨[], by simpa using hw.symm, .done _⟩

/-- The first output has a token of its own, behind silent ones. -/
theorem first {s s' : σ} {e : List α} {w : ω} {ws : List ω} (h : m.Reads s e (w :: ws) s') :
    ∃ f c g t t', e = f ++ c ++ g ∧ m.Reads s f [] t ∧ m.token t c ∧ m.next t c = (t', some w) ∧
      m.Reads t' g ws s' := by
  generalize hout : w :: ws = outs at h
  induction h with
  | done => cases hout
  | @step s t s' c e out outs token next rest ih =>
    cases out with
    | some w' =>
      obtain ⟨rfl, rfl⟩ := List.cons.inj hout
      exact ⟨[], c, e, s, t, rfl, .done s, token, next, rest⟩
    | none =>
      obtain ⟨f, d, g, t₁, t₂, rfl, silent, token', next', rest'⟩ := ih hout
      refine ⟨c ++ f, d, g, t₁, t₂, by simp, ?_, token', next', rest'⟩
      exact Reads.step token next silent

end Reads

/-- A stuck machine has read everything it can: no other reading gets further. -/
theorem Stuck.maximal {s s₁ s₂ : σ} {e v f u : List α} {ws xs : List ω}
    (h₁ : m.Reads s e ws s₁) (stuck : m.Stuck s₁ v) (hu : u = e ++ v) (h₂ : m.Reads s f xs s₂)
    (hf : f <+: u) : ∃ g ys, e = f ++ g ∧ ws = xs ++ ys ∧ m.Reads s₂ g ys s₁ := by
  subst hu
  rcases h₁.compare h₂ (List.prefix_append e v) hf with ⟨g, ys, rfl, rfl, hg⟩ | h
  · by_cases hne : g = []
    · subst hne
      obtain ⟨rfl, rfl⟩ := hg.nil_inv
      exact ⟨[], [], by simp, by simp, .done _⟩
    · obtain ⟨c, f, _, _, _, rfl, _, token, _, _⟩ := hg.cons_inv hne
      rw [List.prefix_append_right_inj] at hf
      exact False.elim (stuck c token ((List.prefix_append c f).trans hf))
  · exact h

/-- All of `u` is read but the rest `v`, at which the machine is stuck. -/
def Settles (m : Machine α σ ω) (s : σ) (u : List α) (ws : List ω) (s' : σ) (v : List α) : Prop :=
  ∃ e, u = e ++ v ∧ m.Reads s e ws s' ∧ m.Stuck s' v

theorem Settles.unique {s s₁ s₂ : σ} {u v₁ v₂ : List α} {ws xs : List ω}
    (h₁ : m.Settles s u ws s₁ v₁) (h₂ : m.Settles s u xs s₂ v₂) :
    ws = xs ∧ s₁ = s₂ ∧ v₁ = v₂ := by
  obtain ⟨e, he, hr₁, stuck₁⟩ := h₁
  obtain ⟨f, hf, hr₂, stuck₂⟩ := h₂
  obtain ⟨g, ys, rfl, rfl, hg⟩ := stuck₁.maximal hr₁ he hr₂ ⟨v₂, hf.symm⟩
  obtain ⟨g', ys', hg', -, -⟩ := stuck₂.maximal hr₂ hf hr₁ ⟨v₁, he.symm⟩
  have hlen := congrArg List.length hg'
  simp only [List.length_append] at hlen
  obtain rfl : g = [] := List.length_eq_zero_iff.mp (by omega)
  obtain ⟨rfl, rfl⟩ := hg.nil_inv
  refine ⟨by simp, rfl, ?_⟩
  simpa using he.symm.trans hf

theorem Settles.total (s : σ) (u : List α) : ∃ ws s' v, m.Settles s u ws s' v := by
  induction hn : u.length using Nat.strongRecOn generalizing s u with
  | ind n ih =>
    by_cases stuck : m.Stuck s u
    · exact ⟨[], s, u, [], rfl, .done s, stuck⟩
    · obtain ⟨c, token, v, rfl⟩ : ∃ c, m.token s c ∧ c <+: u := by
        simpa [Stuck] using stuck
      have hc := List.length_pos_of_ne_nil (m.nonempty s c token)
      obtain ⟨ws, s', r, e, rfl, hr, hstuck⟩ := ih v.length
        (by rw [← hn, List.length_append]; omega) (m.next s c).1 v rfl
      exact ⟨(m.next s c).2.toList ++ ws, s', r, c ++ e, (List.append_assoc _ _ _).symm,
        .step token rfl hr, hstuck⟩

theorem Settles.of_reads {s s₁ s' : σ} {e u v : List α} {ws xs : List ω}
    (h : m.Reads s e ws s₁) (rest : m.Settles s₁ u xs s' v) :
    m.Settles s (e ++ u) (ws ++ xs) s' v := by
  obtain ⟨f, rfl, hr, stuck⟩ := rest
  exact ⟨e ++ f, (List.append_assoc _ _ _).symm, h.trans hr, stuck⟩

/-- More input goes on where the earlier input was left, whatever the cut. -/
theorem Settles.append {s s₁ s' : σ} {u v t r : List α} {ws xs : List ω}
    (h : m.Settles s u ws s₁ v) (rest : m.Settles s₁ (v ++ t) xs s' r) :
    m.Settles s (u ++ t) (ws ++ xs) s' r := by
  obtain ⟨e, rfl, hr, _⟩ := h
  rw [List.append_assoc]
  exact .of_reads hr rest

/-- One poll: silent tokens up to the first output, or until the machine is stuck. -/
inductive Polls (m : Machine α σ ω) (s : σ) (u : List α) : Option ω → σ → List α → Prop where
  | emit {s₁ s' : σ} {e c v : List α} {w : ω} (cut : u = e ++ c ++ v)
      (silent : m.Reads s e [] s₁) (token : m.token s₁ c) (next : m.next s₁ c = (s', some w)) :
      Polls m s u (some w) s' v
  | wait {s' : σ} {e v : List α} (cut : u = e ++ v) (silent : m.Reads s e [] s')
      (stuck : m.Stuck s' v) : Polls m s u none s' v

namespace Polls

theorem settles {s s' : σ} {u v : List α} (h : m.Polls s u none s' v) :
    m.Settles s u [] s' v := by
  cases h with
  | wait cut silent stuck => exact ⟨_, cut, silent, stuck⟩

/-- An output is the first of all the outputs of the input. -/
theorem settles_emit {s s₁ s' : σ} {u v r : List α} {w : ω} {ws : List ω}
    (h : m.Polls s u (some w) s₁ v) (rest : m.Settles s₁ v ws s' r) :
    m.Settles s u (w :: ws) s' r := by
  cases h with
  | emit cut silent token next =>
    subst cut
    exact .of_reads (silent.trans (Reads.single token next)) rest

theorem of_silent {s s₁ s' : σ} {e u v : List α} {out : Option ω} (h : m.Reads s e [] s₁)
    (rest : m.Polls s₁ u out s' v) : m.Polls s (e ++ u) out s' v := by
  cases rest with
  | emit cut silent token next =>
    subst cut
    exact .emit (by simp) (h.trans silent) token next
  | wait cut silent stuck =>
    subst cut
    exact .wait (by simp) (h.trans silent) stuck

/-- The unread part is a suffix of the input, and a proper one after an output. -/
theorem suffix {s s' : σ} {u v : List α} {out : Option ω} (h : m.Polls s u out s' v) :
    ∃ e, u = e ++ v ∧ m.Reads s e out.toList s' ∧ (out.isSome → e ≠ []) := by
  cases h with
  | emit cut silent token next =>
    refine ⟨_, cut, silent.trans (Reads.single token next), ?_⟩
    intro _ hnil
    exact m.nonempty _ _ token (List.append_eq_nil_iff.mp hnil).2
  | wait cut silent stuck => exact ⟨_, cut, silent, by simp⟩

/-- A silent reading gets no further than the token that makes the first output. -/
theorem silent_before {s s₁ s' s₂ : σ} {e c f u : List α} {w : ω} (silent : m.Reads s e [] s₁)
    (token : m.token s₁ c) (next : m.next s₁ c = (s', some w)) (hu : e ++ c <+: u)
    (h₂ : m.Reads s f [] s₂) (hf : f <+: u) : ∃ g, e = f ++ g ∧ m.Reads s₂ g [] s₁ := by
  rcases silent.compare h₂ ((List.prefix_append e c).trans hu) hf with
    ⟨g, ys, rfl, hys, hg⟩ | ⟨g, ys, he, hys, hg⟩
  · by_cases hne : g = []
    · subst hne
      obtain ⟨-, rfl⟩ := hg.nil_inv
      exact ⟨[], by simp, .done _⟩
    · obtain ⟨d, f, t, out, xs, rfl, hout, token', next', _⟩ := hg.cons_inv hne
      obtain ⟨r, rfl⟩ := (List.prefix_append e c).trans hu
      rw [List.prefix_append_right_inj] at hu hf
      have hcd := token_unique token token' hu ((List.prefix_append d f).trans hf)
      subst hcd
      have hsome : out = some w := (congrArg Prod.snd (next'.symm.trans next))
      subst hsome
      simp only [List.nil_append] at hys
      simp [← hys] at hout
  · obtain rfl : ys = [] := by simpa using hys.symm
    exact ⟨g, he, hg⟩

theorem unique {s s₁ s₂ : σ} {u v₁ v₂ : List α} {out₁ out₂ : Option ω}
    (h₁ : m.Polls s u out₁ s₁ v₁) (h₂ : m.Polls s u out₂ s₂ v₂) :
    out₁ = out₂ ∧ s₁ = s₂ ∧ v₁ = v₂ := by
  cases h₁ with
  | wait cut silent stuck =>
    cases h₂ with
    | wait cut' silent' stuck' =>
      have h := Settles.unique ⟨_, cut, silent, stuck⟩ ⟨_, cut', silent', stuck'⟩
      exact ⟨rfl, h.2⟩
    | emit cut' silent' token next =>
      obtain ⟨_, _, _, hout, _⟩ := stuck.maximal silent cut
        (silent'.trans (Reads.single token next)) ⟨_, cut'.symm⟩
      simp at hout
  | emit cut silent token next =>
    cases h₂ with
    | wait cut' silent' stuck' =>
      obtain ⟨_, _, _, hout, _⟩ := stuck'.maximal silent' cut'
        (silent.trans (Reads.single token next)) ⟨_, cut.symm⟩
      simp at hout
    | emit cut' silent' token' next' =>
      rename_i t₁ e c w t₂ f d w'
      have hu : e ++ c <+: u := ⟨_, cut.symm⟩
      have hu' : f ++ d <+: u := ⟨_, cut'.symm⟩
      obtain ⟨g, he, hg⟩ := silent_before silent token next hu silent'
        ((List.prefix_append f d).trans hu')
      obtain ⟨g', hf, -⟩ := silent_before silent' token' next' hu' silent
        ((List.prefix_append e c).trans hu)
      have hlen := congrArg List.length he
      have hlen' := congrArg List.length hf
      simp only [List.length_append] at hlen hlen'
      obtain rfl : g = [] := List.length_eq_zero_iff.mp (by omega)
      obtain ⟨-, rfl⟩ := hg.nil_inv
      obtain rfl : e = f := by simpa using he
      subst cut
      have hcut : c ++ v₁ = d ++ v₂ := by simpa using cut'
      obtain rfl : c = d := token_unique token token' (List.prefix_append c v₁)
        (hcut ▸ List.prefix_append d v₂)
      have hnext := next.symm.trans next'
      simp only [Prod.mk.injEq, Option.some.injEq] at hnext
      exact ⟨by rw [hnext.2], hnext.1, by simpa using hcut⟩

theorem total (s : σ) (u : List α) : ∃ out s' v, m.Polls s u out s' v := by
  obtain ⟨ws, s', v, e, rfl, hr, stuck⟩ := @Settles.total _ _ _ m s u
  induction hr with
  | done => exact ⟨none, _, v, .wait (e := []) rfl (.done _) stuck⟩
  | @step s t s' c e out ws token next _ ih =>
    cases out with
    | some w => exact ⟨some w, t, e ++ v, .emit (e := []) (by simp) (.done s) token next⟩
    | none =>
      obtain ⟨out, s₁, r, h⟩ := ih stuck
      refine ⟨out, s₁, r, ?_⟩
      rw [List.append_assoc]
      exact h.of_silent (Reads.single token next)

end Polls

end Machine

end TokenStream
