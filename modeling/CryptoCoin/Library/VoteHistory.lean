import CryptoCoin.Library.Quorum

/-!
# Locked voting in two phases

Participants prevote and precommit values in numbered rounds. A history is the
list of the votes that correct participants have cast, newest first; faulty ones
may vote anything at any time and are counted for every value.

`Disciplined` is the locking rule. A prevote repeats the other prevotes of its
round, and against an earlier precommit for another value it can point to a
quorum of prevotes for its own value in a round that is not older. A precommit
can point to a quorum of prevotes in its own round, and its voter has not
prevoted in later rounds. `Disciplined.agreement` is the safety of that rule: two
quorums of precommits, in whatever rounds, are for one value.

Rounds carry no order in time. The induction is on the history: the first quorum
of prevotes against a committed value would need an earlier one.
-/

inductive PhaseVote (α β : Type*) where
  | prevote (voter : α) (value : β) (round : ℕ)
  | precommit (voter : α) (value : β) (round : ℕ)
  deriving DecidableEq

namespace PhaseVote

variable {α β : Type*}

def voter : PhaseVote α β → α
  | prevote a _ _ => a
  | precommit a _ _ => a

def round : PhaseVote α β → ℕ
  | prevote _ _ r => r
  | precommit _ _ r => r

end PhaseVote

namespace VoteHistory

variable {α β : Type*} (Q : QuorumSystem α)

/-- A quorum of participants that are faulty or have prevoted the value. -/
def Polka (H : List (PhaseVote α β)) (x : β) (r : ℕ) : Prop :=
  Q.IsQuorum {a | a ∈ Q.faulty ∨ .prevote a x r ∈ H}

def Commit (H : List (PhaseVote α β)) (x : β) (r : ℕ) : Prop :=
  Q.IsQuorum {a | a ∈ Q.faulty ∨ .precommit a x r ∈ H}

/-- What an earlier history must satisfy for a correct vote. -/
def Allowed (H : List (PhaseVote α β)) : PhaseVote α β → Prop
  | .prevote a x r =>
      (∀ y, .prevote a y r ∈ H → y = x) ∧
        ∀ y r', .precommit a y r' ∈ H → y ≠ x → ∃ vr, r' ≤ vr ∧ Polka Q H x vr
  | .precommit a x r => Polka Q H x r ∧ ∀ y r', .prevote a y r' ∈ H → r' ≤ r

/-- Every vote of the history was allowed when it was cast. -/
def Disciplined : List (PhaseVote α β) → Prop
  | [] => True
  | v :: H => Allowed Q H v ∧ Disciplined H

variable {Q} {H H' : List (PhaseVote α β)} {x y : β} {r r' : ℕ}

theorem Polka.mono (hsub : H ⊆ H') (h : Polka Q H x r) : Polka Q H' x r :=
  Q.mono (fun _ ha => ha.imp_right fun hmem => hsub hmem) h

theorem Commit.mono (hsub : H ⊆ H') (h : Commit Q H x r) : Commit Q H' x r :=
  Q.mono (fun _ ha => ha.imp_right fun hmem => hsub hmem) h

theorem Disciplined.of_suffix (h : Disciplined Q H') (hsuf : H <:+ H') : Disciplined Q H := by
  obtain ⟨newer, rfl⟩ := hsuf
  induction newer with
  | nil => exact h
  | cons v newer ih => exact ih h.2

theorem Disciplined.allowed (h : Disciplined Q H') {v : PhaseVote α β} (hv : v ∈ H') :
    ∃ H, v :: H <:+ H' ∧ Allowed Q H v := by
  obtain ⟨newer, H, rfl⟩ := List.append_of_mem hv
  have hsuf : v :: H <:+ newer ++ v :: H := List.suffix_append _ _
  exact ⟨H, hsuf, (h.of_suffix hsuf).1⟩

theorem Disciplined.prevote_unique (h : Disciplined Q H) {a : α}
    (hx : .prevote a x r ∈ H) (hy : .prevote a y r ∈ H) : x = y := by
  induction H with
  | nil => simp at hx
  | cons v H ih =>
      rcases List.mem_cons.mp hx with hxv | hxH
      · rcases List.mem_cons.mp hy with hyv | hyH
        · rw [← hxv] at hyv
          injection hyv with _ heq
          exact heq.symm
        · rw [← hxv] at h
          exact (h.1.1 y hyH).symm
      · rcases List.mem_cons.mp hy with hyv | hyH
        · rw [← hyv] at h
          exact h.1.1 x hxH
        · exact ih h.2 hxH hyH

theorem Disciplined.polka_unique (h : Disciplined Q H) (hx : Polka Q H x r)
    (hy : Polka Q H y r) : x = y := by
  obtain ⟨a, hcorrect, hax, hay⟩ := Q.exists_mem_inter hx hy
  exact h.prevote_unique (hax.resolve_left hcorrect) (hay.resolve_left hcorrect)

theorem Disciplined.polka_of_precommit (h : Disciplined Q H) {a : α}
    (hp : .precommit a x r ∈ H) : Polka Q H x r := by
  obtain ⟨earlier, hsuf, hpolka, _⟩ := h.allowed hp
  exact hpolka.mono fun v hv => hsuf.subset (List.mem_cons_of_mem _ hv)

theorem suffix_or_mem_of_suffix {v w : PhaseVote α β} {K : List (PhaseVote α β)}
    (hv : v :: H <:+ K) (hw : w ∈ K) : w = v ∨ w ∈ H ∨ ∃ H', w :: H' <:+ K ∧ v ∈ H' := by
  obtain ⟨newer, rfl⟩ := hv
  rcases List.mem_append.mp hw with hw | hw
  · obtain ⟨newest, between, rfl⟩ := List.append_of_mem hw
    refine Or.inr (Or.inr ⟨between ++ v :: H, ?_, by simp⟩)
    rw [List.append_assoc, List.cons_append]
    exact List.suffix_append _ _
  · rcases List.mem_cons.mp hw with hw | hw
    · exact Or.inl hw
    · exact Or.inr (Or.inl hw)

/-- Once a value has a quorum of precommits in the full history, every quorum of
prevotes of that round or a later one is for it, at every earlier moment too. -/
theorem Disciplined.polka_eq_of_commit {K : List (PhaseVote α β)} (hK : Disciplined Q K)
    (hcommit : Commit Q K x r) (hsuf : H <:+ K) (hr : r ≤ r') (hy : Polka Q H y r') :
    y = x := by
  -- on the length of the history, for all values and rounds
  induction hn : H.length using Nat.strong_induction_on generalizing H y r' with
  | _ n ih =>
      obtain ⟨a, hcorrect, haPre, haCom⟩ := Q.exists_mem_inter hy hcommit
      have hprevote := haPre.resolve_left hcorrect
      have hprecommit := haCom.resolve_left hcorrect
      obtain ⟨earlier, hearlier, hallowed⟩ := (hK.of_suffix hsuf).allowed hprevote
      rcases suffix_or_mem_of_suffix (hearlier.trans hsuf) hprecommit with heq | hmem | hlater
      · cases heq
      · -- precommitted before: the prevote points to an earlier polka
        by_contra hne
        obtain ⟨vr, hvr, hpolka⟩ := hallowed.2 x r hmem (Ne.symm hne)
        have hshort : earlier.length < n := by
          have hle := hearlier.length_le
          rw [List.length_cons] at hle
          omega
        have hsuffix : earlier <:+ K :=
          (List.suffix_cons _ _).trans (hearlier.trans hsuf)
        exact hne (ih earlier.length hshort hsuffix hvr hpolka rfl)
      · -- precommitted after: then both polkas are of one round
        obtain ⟨H', hH', hmem⟩ := hlater
        obtain ⟨_, hrounds⟩ := (hK.of_suffix hH').1
        have hround : r' = r := le_antisymm (hrounds y r' hmem) hr
        subst hround
        exact hK.polka_unique (hy.mono fun v hv => hsuf.subset hv)
          (hK.polka_of_precommit hprecommit)

/-- Two quorums of precommits of a disciplined history are for one value. -/
theorem Disciplined.agreement (h : Disciplined Q H) (hx : Commit Q H x r)
    (hy : Commit Q H y r') : x = y := by
  have hpolka : ∀ {z : β} {s : ℕ}, Commit Q H z s → Polka Q H z s := by
    intro z s hz
    obtain ⟨a, hcorrect, ha⟩ := Q.exists_mem hz
    exact h.polka_of_precommit (ha.resolve_left hcorrect)
  rcases le_total r r' with hle | hle
  · exact (h.polka_eq_of_commit hx List.suffix_rfl hle (hpolka hy)).symm
  · exact h.polka_eq_of_commit hy List.suffix_rfl hle (hpolka hx)

end VoteHistory
