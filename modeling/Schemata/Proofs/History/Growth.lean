import Schemata.Proofs.History.Linear

/-! Chains that grow.

The chain of a history depends neither on the order of the migrations nor on what is in them beside names,
engines and parents. A migration with a new name that is built on the last one of the chain comes behind it. -/
namespace Schemata.Chain

variable {engine : String} {migrations migrations' chain : List Migration} {m : Migration}

theorem linear_of_resolve (h : resolve engine migrations = .ok chain) :
    chain.Perm (migrations.filter (·.database == engine)) ∧ (chain.map (·.name)).Nodup ∧ Linear none chain := by
  obtain ⟨known, hknown, h⟩ := bind_eq_ok_iff.1 h
  obtain ⟨hperm, hl⟩ := linear_of_ofKnown h
  exact ⟨hperm.trans (byName_perm hknown), (hperm.map _).nodup_iff.2 known.nodup_keys, hl⟩

theorem resolve_of_linear (hperm : chain.Perm (migrations.filter (·.database == engine)))
    (hnames : (chain.map (·.name)).Nodup) (hl : Linear none chain) : resolve engine migrations = .ok chain := by
  obtain ⟨known, hknown⟩ : ∃ known, byName engine (migrations.filter (·.database == engine)) = .ok known :=
    exists_byName ((hperm.map _).nodup_iff.1 hnames)
  exact bind_eq_ok_iff.2 ⟨known, hknown, ofKnown_of_linear (hperm.trans (byName_perm hknown).symm) hl⟩

theorem resolve_of_perm (h : resolve engine migrations = .ok chain) (hperm : migrations'.Perm migrations) :
    resolve engine migrations' = .ok chain := by
  obtain ⟨hchain, hnames, hl⟩ := linear_of_resolve h
  exact resolve_of_linear (hchain.trans (hperm.symm.filter _)) hnames hl

theorem linear_concat (h : Linear none chain) (hm : m.parent = chain.getLast?.map (·.name)) :
    Linear none (chain ++ [m]) := by
  cases hlast : chain.getLast? with
  | none =>
    obtain rfl := List.getLast?_eq_none_iff.1 hlast
    exact ⟨hm, trivial⟩
  | some last => exact linear_snoc h hlast (by rw [hm, hlast]; rfl)

/-- **One more migration.** -/
theorem resolve_concat (h : resolve engine migrations = .ok chain) (hperm : migrations'.Perm (m :: migrations))
    (hdatabase : m.database = engine) (hnew : m.name ∉ migrations.map (·.name))
    (hparent : m.parent = chain.getLast?.map (·.name)) : resolve engine migrations' = .ok (chain ++ [m]) := by
  obtain ⟨hchain, hnames, hl⟩ := linear_of_resolve h
  refine resolve_of_linear ?_ ?_ (linear_concat hl hparent)
  · have hfilter := hperm.symm.filter (·.database == engine)
    rw [List.filter_cons, if_pos (beq_iff_eq.2 hdatabase)] at hfilter
    exact (List.perm_append_singleton m chain).trans ((hchain.cons m).trans hfilter)
  · rw [List.map_append, List.nodup_append]
    refine ⟨hnames, by simp, fun name hname name' hname' he => ?_⟩
    obtain rfl : name' = m.name := by simpa using hname'
    obtain ⟨x, hx, hxname⟩ := List.mem_map.1 hname
    have hin := (List.mem_filter.1 (hchain.subset hx)).1
    exact hnew (List.mem_map.2 ⟨x, hin, hxname.trans he⟩)

end Schemata.Chain
