import TomitaParser.Glr.Level
/-! # Shifting to the next position -/

set_option linter.unusedSectionVars false

namespace TomitaParser
open OrderedSet LoopRun Cfg

variable {σ Agr Item : Type*} [Inhabited Item]
variable {G : WorkGrammar} {C : CollectionSet} {T : GlrTable Agr} {W : ℕ → ℕ → Prop}
variable {g h : Gss Item}

/-- What shifts may change: only nodes of the new level get children. -/
structure ShiftEffect (p p' : GlrParser σ Item) : Prop where
  ext : Gss.Ext p.toGss p'.toGss
  symbolChildren : ∀ v, v < p.lastLevel →
    (p'.stateNode v).symbolChildren = (p.stateNode v).symbolChildren
  nodeChildren : ∀ v, v < p.lastLevel → ∀ s ∈ (p.stateNode v).symbolChildren,
    (p'.symbolNode s).nodeChildren = (p.symbolNode s).nodeChildren
  shifts : p'.pendingShifts = p.pendingShifts
  reductions : p'.pendingReductions = p.pendingReductions
  createdGroups : p'.createdGroups = p.createdGroups
  disable : p'.disableWordsStateNodes = p.disableWordsStateNodes

theorem ShiftEffect.refl {p p' : GlrParser σ Item} (hgss : p'.toGss = p.toGss)
    (hs : p'.pendingShifts = p.pendingShifts) (hr : p'.pendingReductions = p.pendingReductions)
    (hc : p'.createdGroups = p.createdGroups)
    (hd : p'.disableWordsStateNodes = p.disableWordsStateNodes) : ShiftEffect p p' := by
  refine ⟨?_, ?_, ?_, hs, hr, hc, hd⟩
  · rw [hgss]
    exact Gss.Ext.refl _
  · rw [hgss]
    exact fun _ _ => rfl
  · rw [hgss]
    exact fun _ _ _ _ => rfl

theorem Gss.Ext.lastLevel (he : Gss.Ext g h) : h.lastLevel = g.lastLevel := by
  rw [Gss.lastLevel, he.levels, Gss.lastLevel]

theorem ShiftEffect.trans {p p' p'' : GlrParser σ Item} (h₁ : ShiftEffect p p')
    (h₂ : ShiftEffect p' p'') : ShiftEffect p p'' where
  ext := h₁.ext.trans h₂.ext
  symbolChildren v hv := by
    rw [h₂.symbolChildren v (by rw [h₁.ext.lastLevel]; exact hv), h₁.symbolChildren v hv]
  nodeChildren v hv s hs := by
    rw [h₂.nodeChildren v (by rw [h₁.ext.lastLevel]; exact hv) s
      (by rw [h₁.symbolChildren v hv]; exact hs), h₁.nodeChildren v hv s hs]
  shifts := h₂.shifts.trans h₁.shifts
  reductions := h₂.reductions.trans h₁.reductions
  createdGroups := h₂.createdGroups.trans h₁.createdGroups
  disable := h₂.disable.trans h₁.disable

/-- What one shift does: an accepting factory gets its edge. -/
structure ShiftSpec (G : WorkGrammar) (C : CollectionSet) (W : ℕ → ℕ → Prop)
    (cfg : ParserConfig σ Agr Item) (sh : PendingShift) (p p' : GlrParser σ Item) : Prop where
  inv : ShiftInv G C cfg.table W p'
  effect : ShiftEffect p p'
  edge : Accepting cfg.factory → p.disableWordsStateNodes = false →
    HasEdge p'.toGss sh.stateNodeNo sh.symbolNo (p.current - 1) p.current

theorem ShiftInv.frontier {p : GlrParser σ Item} (hp : ShiftInv G C T W p) :
    p.getFirstNodeNoOfCurrentClosure = p.lastLevel := by
  have := hp.levels
  rw [Gss.getFirstNodeNoOfCurrentClosure, if_neg]
  simp only [beq_iff_eq]
  omega

/-- Linking a leaf of the new level to the node that is shifted from. -/
private theorem link_spec {cfg : ParserConfig σ Agr Item} {p : GlrParser σ Item}
    (hp : ShiftInv G C cfg.table W p) {sh : PendingShift}
    (hsh : ShiftOk C W p.toGss (p.current - 1) sh) {n s : ℕ} (hn : p.lastLevel ≤ n)
    (hstate : (p.stateNode n).stateNo = sh.nextStateNo)
    (hs : s ∈ (p.stateNode n).symbolChildren) (hsym : (p.symbolNode s).symbolNo = sh.symbolNo) :
    ShiftSpec G C W cfg sh p (p.updateGss (p.modifySymbolNode s fun sn =>
      if sn.nodeChildren.contains sh.stateNodeNo then sn
      else { sn with nodeChildren := sn.nodeChildren ++ [sh.stateNodeNo] })) := by
  obtain ⟨f, hf⟩ : ∃ f : SymbolNode Item → SymbolNode Item, f = fun sn =>
      if sn.nodeChildren.contains sh.stateNodeNo then sn
      else { sn with nodeChildren := sn.nodeChildren ++ [sh.stateNodeNo] } := ⟨_, rfl⟩
  rw [← hf]
  have hkeeps : Gss.KeepsSpan f := by
    rw [hf]
    refine ⟨?_, ?_, ?_, ?_⟩ <;> intro sn
    · split_ifs <;> rfl
    · split_ifs <;> rfl
    · split_ifs <;> rfl
    · intro w hw
      split_ifs
      · exact hw
      · exact List.mem_append_left _ hw
  have hparse : ∀ sn : SymbolNode Item, (f sn).parseChildren = sn.parseChildren := by
    intro sn
    rw [hf]
    dsimp only
    split_ifs <;> rfl
  have hchildren : ∀ sn : SymbolNode Item, ∀ w ∈ (f sn).nodeChildren,
      w ∈ sn.nodeChildren ∨ w = sh.stateNodeNo := by
    intro sn w hw
    rw [hf] at hw
    dsimp only at hw
    split_ifs at hw
    · exact Or.inl hw
    · simpa using hw
  have hlinked : sh.stateNodeNo ∈ (f (p.symbolNode s)).nodeChildren := by
    rw [hf]
    dsimp only
    split_ifs with hc
    · simpa using hc
    · simp
  have hlt := hp.gss.symbol_lt n s hs
  have hposition := hp.gss.levels_position hn
  have hspan := (hp.gss.symbol s hlt).leaf (hp.leaf n hn s hs)
  have hend := hp.gss.inputEnd n s hs
  have hstart : (p.symbolNode s).inputStart = p.current - 1 := by omega
  have hext := Gss.ext_modifySymbolNode p.toGss s hkeeps
  have hedge : EdgeOk C p.toGss n (p.symbolNode s) sh.stateNodeNo := by
    refine ⟨hsh.lt, ?_, ?_⟩
    · rw [hsym, hstate]
      exact hsh.goto
    · rw [hstart]
      exact hsh.position
  have hnew : (p.modifySymbolNode s f).symbolNode s = f (p.symbolNode s) := by
    rw [Gss.symbolNode_modifySymbolNode, if_pos ⟨rfl, hlt⟩]
  refine ⟨⟨?_, hp.reductions, hp.levels, ?_⟩, ⟨hext, fun _ _ => rfl, ?_, rfl, rfl, rfl, rfl⟩, ?_⟩
  · refine hp.gss.modifySymbolNode hkeeps ?_ ?_ ?_
    · intro v hv w hw hnot
      obtain rfl := hp.gss.owner v n s hv hs
      rcases hchildren _ w hw with hw | rfl
      · exact absurd hw hnot
      · exact hedge
    · rw [hparse]
      exact fun h => h
    · intro _ pc hpc hnot
      rw [hparse] at hpc
      exact absurd hpc hnot
  · intro v hv t ht
    show ((p.modifySymbolNode s f).symbolNode t).parseChildren = []
    rw [Gss.symbolNode_modifySymbolNode]
    split_ifs
    · rw [hparse]
      exact hp.leaf n hn s hs
    · exact hp.leaf v hv t ht
  · intro v hv t ht
    show ((p.modifySymbolNode s f).symbolNode t).nodeChildren = _
    rw [Gss.symbolNode_modifySymbolNode]
    split_ifs with h
    · -- the leaf hangs at a node of the new level, and at no other
      have hvn := hp.gss.owner v n s (h.1 ▸ ht) hs
      omega
    · rfl
  · intro _ _
    refine ⟨n, s, hs, ?_, ?_, ?_, ?_⟩
    · show sh.stateNodeNo ∈ ((p.modifySymbolNode s f).symbolNode s).nodeChildren
      rw [hnew]
      exact hlinked
    · show ((p.modifySymbolNode s f).symbolNode s).symbolNo = _
      rw [hnew, hkeeps.symbolNo]
      exact hsym
    · show ((p.modifySymbolNode s f).symbolNode s).inputStart = _
      rw [hnew, hkeeps.inputStart]
      exact hstart
    · exact hposition

/-- A new leaf below the node `n` of the new level. -/
private theorem addLeaf_spec {p : GlrParser σ Item} (hp : ShiftInv G C T W p) {sn : SymbolNode Item}
    {n : ℕ} (hn0 : n ≠ 0) (hlt : n < p.stateNodes.length) (hn : p.lastLevel ≤ n)
    (hstart : sn.inputStart = p.inputLevels.length - 2)
    (hend : sn.inputEnd = p.inputLevels.length - 1) (hnode : sn.nodeChildren = [])
    (hparse : sn.parseChildren = []) (hsym : W sn.inputStart sn.symbolNo) :
    ShiftInv G C T W (p.updateGss (p.addSymbolNode n sn)) ∧
      ShiftEffect p (p.updateGss (p.addSymbolNode n sn)) := by
  have hlevels := hp.levels
  have hext := Gss.ext_addSymbolNode p.toGss n sn
  have hposition := hp.gss.levels_position hn
  have hnext : sn.inputEnd = sn.inputStart + 1 := by omega
  have hsn : SymbolOk G T W p.toGss sn := by
    refine ⟨by omega, by rw [hend, Gss.current], fun _ => ⟨hnext, hsym⟩, ?_, ?_⟩
    · intro pc hpc
      rw [hparse] at hpc
      exact absurd hpc List.not_mem_nil
    · rw [hnext]
      exact Spans.tok hsym (Spans.nil _)
  refine ⟨⟨?_, hp.reductions, hp.levels, ?_⟩, ⟨hext, ?_, ?_, rfl, rfl, rfl, rfl⟩⟩
  · refine hp.gss.addSymbolNode hn0 hlt (by rw [hposition, hend, Gss.current]) ?_ hsn
    intro w hw
    rw [hnode] at hw
    exact absurd hw List.not_mem_nil
  · intro v hv s hs
    change s ∈ ((p.addSymbolNode n sn).stateNode v).symbolChildren at hs
    show ((p.addSymbolNode n sn).symbolNode s).parseChildren = []
    rw [Gss.symbolNode_addSymbolNode]
    split_ifs with h
    · exact hparse
    · rw [Gss.stateNode_addSymbolNode] at hs
      split_ifs at hs with hvn
      · rcases List.mem_append.mp hs with hs | hs
        · exact hp.leaf n hn s hs
        · exact absurd (List.mem_singleton.mp hs) h
      · exact hp.leaf v hv s hs
  · intro v hv
    show ((p.addSymbolNode n sn).stateNode v).symbolChildren = _
    rw [Gss.stateNode_addSymbolNode, if_neg (by omega)]
  · intro v _ s hs
    show ((p.addSymbolNode n sn).symbolNode s).nodeChildren = _
    have := hp.gss.symbol_lt v s hs
    rw [Gss.symbolNode_addSymbolNode, if_neg (by omega)]

private theorem shiftInto_spec {cfg : ParserConfig σ Agr Item} {p : GlrParser σ Item}
    (hp : ShiftInv G C cfg.table W p) {sh : PendingShift}
    (hsh : ShiftOk C W p.toGss (p.current - 1) sh) {n : ℕ} (hn0 : n ≠ 0)
    (hlt : n < p.stateNodes.length) (hn : p.lastLevel ≤ n)
    (hstate : (p.stateNode n).stateNo = sh.nextStateNo) :
    ShiftSpec G C W cfg sh p (shiftInto cfg sh n p) := by
  have hcurrent : p.current - 1 = p.inputLevels.length - 2 := by
    have := hp.levels
    simp only [Gss.current]
    omega
  cases hfind : (p.stateNode n).symbolChildren.find?
      fun s => (p.symbolNode s).symbolNo == sh.symbolNo with
  | some s =>
    have hs := List.mem_of_find?_eq_some hfind
    have hsym : (p.symbolNode s).symbolNo = sh.symbolNo := by
      simpa using List.find?_some hfind
    have hresult := link_spec hp hsh hn hstate hs hsym
    simp only [shiftInto, hfind]
    exact hresult
  | none =>
    simp only [shiftInto, hfind]
    rcases hcreate : cfg.factory.createLeafItem p.heap sh.symbolNo (p.inputLevels.length - 2)
      with ⟨result, heap⟩
    cases result with
    | none =>
      refine ⟨⟨hp.gss, hp.reductions, hp.levels, hp.leaf⟩, ShiftEffect.refl rfl rfl rfl rfl rfl, ?_⟩
      intro hacc
      refine absurd ?_ (hacc.createLeafItem p.heap sh.symbolNo (p.inputLevels.length - 2))
      rw [hcreate]
    | some item =>
      obtain ⟨sn, hsn⟩ : ∃ sn : SymbolNode Item, sn =
          { symbolNo := sh.symbolNo, item, inputStart := p.inputLevels.length - 2
            inputEnd := p.inputLevels.length - 1 } := ⟨_, rfl⟩
      have hsym : W sn.inputStart sn.symbolNo := by
        rw [hsn, ← hcurrent]
        exact hsh.symbol
      obtain ⟨hinv, heff⟩ := addLeaf_spec hp hn0 hlt hn (by rw [hsn]) (by rw [hsn]) (by rw [hsn])
        (by rw [hsn]) hsym
      have hext := heff.ext
      -- the leaf is there, so the rest is what happens with a leaf that was there before
      obtain ⟨p₁, hp₁⟩ : ∃ p₁ : GlrParser σ Item, p₁ =
          { p.updateGss (p.addSymbolNode n sn) with heap } := ⟨_, rfl⟩
      have hgss : p₁.toGss = p.addSymbolNode n sn := by rw [hp₁]; rfl
      have hinv₁ : ShiftInv G C cfg.table W p₁ := by
        rw [hp₁]
        exact ⟨hinv.gss, hinv.reductions, hinv.levels, hinv.leaf⟩
      have hcurrent₁ : p₁.current = p.current := by rw [hgss]; exact hext.current
      have hs₁ : p.symbolNodes.length ∈ (p₁.stateNode n).symbolChildren := by
        rw [hgss, Gss.stateNode_addSymbolNode, if_pos ⟨rfl, hlt⟩]
        simp
      have hsh₁ : ShiftOk C W p₁.toGss (p₁.current - 1) sh := by
        rw [hcurrent₁, hgss]
        exact hsh.ext hext
      have hn₁ : p₁.lastLevel ≤ n := by
        rw [hgss]
        exact hext.lastLevel.trans_le hn
      have hstate₁ : (p₁.stateNode n).stateNo = sh.nextStateNo := by
        rw [hgss]
        exact (hext.stateNo n hlt).trans hstate
      have hlink := link_spec hinv₁ hsh₁ hn₁ hstate₁ hs₁ (by
        rw [hgss, Gss.symbolNode_addSymbolNode, if_pos rfl, hsn])
      have heff₁ : ShiftEffect p p₁ := by
        rw [hp₁]
        exact ⟨heff.ext, heff.symbolChildren, heff.nodeChildren, rfl, rfl, rfl, rfl⟩
      have hresult : { p with
          heap
          toGss := (p.addSymbolNode n
            { symbolNo := sh.symbolNo, item, inputStart := p.inputLevels.length - 2
              inputEnd := p.inputLevels.length - 1 }).modifySymbolNode p.symbolNodes.length
            fun sn => if sn.nodeChildren.contains sh.stateNodeNo then sn
              else { sn with nodeChildren := sn.nodeChildren ++ [sh.stateNodeNo] } } =
          p₁.updateGss (p₁.modifySymbolNode p.symbolNodes.length fun sn =>
            if sn.nodeChildren.contains sh.stateNodeNo then sn
            else { sn with nodeChildren := sn.nodeChildren ++ [sh.stateNodeNo] }) := by
        rw [hp₁, hsn]
        rfl
      dsimp only
      rw [hresult]
      refine ⟨hlink.inv, heff₁.trans hlink.effect, ?_⟩
      intro hacc hdisable
      have hedge := hlink.edge hacc (by rw [heff₁.disable]; exact hdisable)
      rw [hcurrent₁] at hedge
      exact hedge

private theorem shiftOne_spec {cfg : ParserConfig σ Agr Item} (hC : Automaton G C)
    {p : GlrParser σ Item} (hp : ShiftInv G C cfg.table W p) {sh : PendingShift}
    (hsh : ShiftOk C W p.toGss (p.current - 1) sh) :
    ShiftSpec G C W cfg sh p (shiftOne cfg p sh) := by
  unfold shiftOne
  split_ifs with hskip
  · refine ⟨hp, ShiftEffect.refl rfl rfl rfl rfl rfl, ?_⟩
    intro _ hdisable
    rw [hdisable] at hskip
    simp at hskip
  · have hnode := createOrReuseNode_nodeFor cfg hp.gss (hC.goto_ne_zero _ _ _ hsh.goto)
    rcases hcr : createOrReuseNode cfg p.toGss sh.nextStateNo with ⟨created, n, g⟩
    rw [hcr] at hnode
    dsimp only at hnode ⊢
    have hext := hnode.ext
    have hfrontier := hnode.frontier
    rw [hp.frontier] at hfrontier
    obtain ⟨p₁, hp₁⟩ : ∃ p₁ : GlrParser σ Item, p₁ = p.updateGss g := ⟨_, rfl⟩
    have hgss : p₁.toGss = g := by rw [hp₁]; rfl
    rw [← hp₁]
    rw [← hgss] at hnode hext
    have hold : ∀ v, ∀ s ∈ (p₁.stateNode v).symbolChildren, s ∈ (p.stateNode v).symbolChildren := by
      intro v s hs
      have hr := hnode.result
      split_ifs at hr
      · rw [hr.2, Gss.stateNode_addStateNode] at hs
        split_ifs at hs
        · exact absurd hs List.not_mem_nil
        · exact hs
      · rwa [hr] at hs
    have hsymbol : ∀ s, p₁.symbolNode s = p.symbolNode s := by
      intro s
      rw [Gss.symbolNode, hnode.symbolNodes, Gss.symbolNode]
    have hinv : ShiftInv G C cfg.table W p₁ := by
      refine ⟨hnode.gss hp.gss, ?_, ?_, ?_⟩
      · rw [hp₁]
        exact hp.reductions
      · rw [hext.levels]
        exact hp.levels
      · intro v hv s hs
        rw [hsymbol]
        exact hp.leaf v (by rwa [hext.lastLevel] at hv) s (hold v s hs)
    have heff : ShiftEffect p p₁ := by
      have hlevel := hp.gss.last_le
      refine ⟨hext, ?_, ?_, by rw [hp₁]; rfl, by rw [hp₁]; rfl, by rw [hp₁]; rfl, by rw [hp₁]; rfl⟩
      · intro v hv
        rw [hnode.stateNode (by omega)]
      · intro v _ s _
        rw [hsymbol]
    have hsh₁ : ShiftOk C W p₁.toGss (p₁.current - 1) sh := by
      rw [hext.current]
      exact hsh.ext hext
    have hn : p₁.lastLevel ≤ n := by
      rw [hext.lastLevel]
      exact hfrontier
    have hspec := shiftInto_spec hinv hsh₁ hnode.ne_zero hnode.lt hn hnode.stateNo
    refine ⟨hspec.inv, heff.trans hspec.effect, ?_⟩
    intro hacc hdisable
    have hedge := hspec.edge hacc (by rw [heff.disable]; exact hdisable)
    rw [hext.current] at hedge
    exact hedge

theorem foldl_shiftOne_spec {cfg : ParserConfig σ Agr Item} (hC : Automaton G C)
    (shifts : List PendingShift) (p : GlrParser σ Item) (hp : ShiftInv G C cfg.table W p)
    (hsh : ∀ sh ∈ shifts, ShiftOk C W p.toGss (p.current - 1) sh) :
    ShiftInv G C cfg.table W (shifts.foldl (shiftOne cfg) p) ∧
      ShiftEffect p (shifts.foldl (shiftOne cfg) p) ∧
      (Accepting cfg.factory → p.disableWordsStateNodes = false → ∀ sh ∈ shifts,
        HasEdge (shifts.foldl (shiftOne cfg) p).toGss sh.stateNodeNo sh.symbolNo (p.current - 1)
          p.current) := by
  induction shifts generalizing p with
  | nil =>
    refine ⟨hp, ShiftEffect.refl rfl rfl rfl rfl rfl, ?_⟩
    intro _ _ sh hmem
    exact absurd hmem List.not_mem_nil
  | cons sh shifts ih =>
    have hone := shiftOne_spec hC hp (hsh sh List.mem_cons_self)
    have hcurrent := hone.effect.ext.current
    obtain ⟨hinv, heff, hedges⟩ := ih (shiftOne cfg p sh) hone.inv (by
      intro sh' hmem
      rw [hcurrent]
      exact (hsh sh' (List.mem_cons_of_mem sh hmem)).ext hone.effect.ext)
    rw [List.foldl_cons]
    refine ⟨hinv, hone.effect.trans heff, ?_⟩
    intro hacc hdisable sh' hmem
    rcases List.mem_cons.mp hmem with rfl | hmem
    · exact (hone.edge hacc hdisable).ext hone.inv.gss heff.ext
    · have hedge := hedges hacc (by rw [hone.effect.disable]; exact hdisable) sh' hmem
      rwa [hcurrent] at hedge

end TomitaParser
