import Mathlib.Data.List.Nodup
import TomitaParser.Rusie.KeyWords
/-! # The lemmas that articles are attached by

Nothing but the restoring of predicted lemmas changes the lemma of a homonym. The word has one place
for a predicted lemma, and the last one found is put there: an article is attached to its own lemma
just if that is the lemma of the last one, or of another homonym. -/

namespace TomitaParser.KeyWords
open Reduction (GramBits HomonymGrammems)

/-- The lemma of a homonym of a word. -/
def Word.lemmaAt (w : Word) (iH : ℕ) : Option String := (w.homonyms[iH]?).map Homonym.lemmaText

/-- The lemma of a homonym of a sentence. -/
def lemmaAt (words : List Word) (iW iH : ℕ) : Option String :=
  (words.getD iW default).lemmaAt iH

/-- No homonym of the word changes its lemma. -/
def Word.Kept (w w' : Word) : Prop := ∀ iH l, w.lemmaAt iH = some l → w'.lemmaAt iH = some l

/-- No homonym of the sentence changes its lemma. -/
def Kept (words words' : List Word) : Prop :=
  ∀ iW iH l, lemmaAt words iW iH = some l → lemmaAt words' iW iH = some l

theorem Kept.refl (words : List Word) : Kept words words := fun _ _ _ h => h

theorem Kept.trans {a b c : List Word} (hab : Kept a b) (hbc : Kept b c) : Kept a c :=
  fun iW iH l h => hbc iW iH l (hab iW iH l h)

namespace Word
variable {w : Word} {iH : ℕ} {l : String}

theorem lemmaAt_modifyHomonym {f : Homonym → Homonym} (hf : ∀ h, (f h).lemmaText = h.lemmaText)
    (jH : ℕ) : (w.modifyHomonym jH f).lemmaAt iH = w.lemmaAt iH := by
  rw [lemmaAt, lemmaAt, modifyHomonym, List.getElem?_modify]
  cases w.homonyms[iH]? with
  | none => rfl
  | some h =>
    show some (if jH = iH then f h else h).lemmaText = some h.lemmaText
    split_ifs
    · rw [hf]
    · rfl

theorem lemmaAt_append {h : Homonym} (hl : w.lemmaAt iH = some l) :
    lemmaAt { w with homonyms := w.homonyms ++ [h] } iH = some l := by
  rw [lemmaAt] at hl ⊢
  obtain ⟨own, hown, heq⟩ := Option.map_eq_some_iff.mp hl
  obtain ⟨hlt, _⟩ := List.getElem?_eq_some_iff.mp hown
  rw [List.getElem?_append_left hlt]
  exact hl

theorem lemmaText_rusHomonym (hl : w.lemmaAt iH = some l) : (w.rusHomonym iH).lemmaText = l := by
  obtain ⟨own, hown, heq⟩ := Option.map_eq_some_iff.mp hl
  rw [rusHomonym, List.getD_eq_getElem?_getD, hown]
  exact heq

/-- Putting an article keeps the lemmas, and its homonym has the lemma of the one it is put to. -/
theorem putGztArticle_spec (article : GztArticle) (bClone : Bool) :
    w.Kept (w.putGztArticle iH article bClone).2 ∧ ∀ l, w.lemmaAt iH = some l →
      (w.putGztArticle iH article bClone).2.lemmaAt (w.putGztArticle iH article bClone).1 =
        some l := by
  have hclone : w.Kept { w with homonyms :=
      w.homonyms ++ [(w.rusHomonym iH).putGztArticle article] } ∧ ∀ l, w.lemmaAt iH = some l →
      lemmaAt { w with homonyms := w.homonyms ++ [(w.rusHomonym iH).putGztArticle article] }
        w.homonyms.length = some l := by
    constructor
    · intro jH l hl
      exact lemmaAt_append hl
    · intro l hl
      rw [lemmaAt, List.getElem?_concat_length]
      exact congrArg some (lemmaText_rusHomonym hl)
  have hmodify : ∀ f : Homonym → Homonym, (∀ h, (f h).lemmaText = h.lemmaText) →
      w.Kept (w.modifyHomonym iH f) ∧ ∀ l, w.lemmaAt iH = some l →
        (w.modifyHomonym iH f).lemmaAt iH = some l := by
    intro f hf
    constructor
    · intro jH l hl
      rw [lemmaAt_modifyHomonym hf]
      exact hl
    · intro l hl
      rw [lemmaAt_modifyHomonym hf]
      exact hl
  unfold putGztArticle
  dsimp only
  split
  · exact hmodify _ fun _ => rfl
  · exact hclone
  · split_ifs
    · exact hclone
    · exact hmodify _ fun _ => rfl

end Word

section Changes
variable {words : List Word} {iW iH : ℕ}

theorem lemmaAt_eq_some {l : String} (h : lemmaAt words iW iH = some l) : iW < words.length := by
  by_contra hle
  rw [lemmaAt, List.getD_eq_getElem?_getD, List.getElem?_eq_none (not_lt.mp hle)] at h
  cases h

theorem Kept.set {w' : Word} (h : (words.getD iW default).Kept w') :
    Kept words (words.set iW w') := by
  intro jW jH l hl
  have hlt := lemmaAt_eq_some hl
  rw [lemmaAt, List.getD_eq_getElem?_getD] at hl ⊢
  by_cases heq : iW = jW
  · rw [heq] at h ⊢
    rw [List.getElem?_set_self hlt]
    rw [List.getD_eq_getElem?_getD] at h
    exact h jH l hl
  · rw [List.getElem?_set_ne heq]
    exact hl

theorem lemmaAt_set {w' : Word} (h : iW < words.length) :
    lemmaAt (words.set iW w') iW iH = w'.lemmaAt iH := by
  rw [lemmaAt, List.getD_eq_getElem?_getD, List.getElem?_set_self h]
  rfl

theorem Kept.modify {f : Word → Word} (h : ∀ w : Word, w.Kept (f w)) :
    Kept words (words.modify iW f) := by
  intro jW jH l hl
  rw [lemmaAt, List.getD_eq_getElem?_getD] at hl ⊢
  rw [List.getElem?_modify]
  cases hw : words[jW]? with
  | none =>
    rw [hw] at hl
    exact hl
  | some w =>
    rw [hw] at hl
    show (if iW = jW then f w else w).lemmaAt jH = some l
    split_ifs
    · exact h w jH l hl
    · exact hl

end Changes

namespace Dictionaries
variable (K : Dictionaries)

theorem putToWord_spec (w : Word) (iH : ℕ) (article : GztArticle) (newGram : HomonymGrammems) :
    w.Kept (K.putToWord w iH article newGram).2 ∧ ∀ l, w.lemmaAt iH = some l →
      (K.putToWord w iH article newGram).2.lemmaAt (K.putToWord w iH article newGram).1 =
        some l := by
  unfold putToWord
  dsimp only
  generalize (!newGram.empty && (w.rusHomonym iH).grammems != newGram ||
    !K.isGeo article.type) = bClone
  obtain ⟨hkept, hlemma⟩ := @Word.putGztArticle_spec w iH article bClone
  have hsame : ∀ (grammems : HomonymGrammems) (h : Homonym),
      ({ h with grammems } : Homonym).lemmaText = h.lemmaText := fun _ _ => rfl
  split_ifs
  · exact ⟨hkept, hlemma⟩
  · constructor
    · intro jH l hl
      rw [Word.lemmaAt_modifyHomonym (hsame newGram)]
      exact hkept jH l hl
    · intro l hl
      rw [Word.lemmaAt_modifyHomonym (hsame newGram)]
      exact hlemma l hl

theorem takeSingleWord_spec (ws : TextWS) (words : List Word) :
    Kept words (K.takeSingleWord ws words).2 ∧ ∀ l,
      lemmaAt words ws.mainWord ws.homNum = some l →
        lemmaAt (K.takeSingleWord ws words).2 ws.mainWord (K.takeSingleWord ws words).1 =
          some l := by
  obtain ⟨hkept, hlemma⟩ := K.putToWord_spec (words.getD ws.mainWord default) ws.homNum ws.article
    (K.newGrammems words ws)
  constructor
  · exact Kept.set hkept
  · intro l hl
    rw [takeSingleWord, lemmaAt_set (lemmaAt_eq_some hl)]
    exact hlemma l hl

end Dictionaries

/-- Every attached article is that of a sequence of `L`, and its homonym has the lemma that the main
homonym of the sequence had in `base`. -/
structure Tracks (L : List TextWS) (base : List Word) (s : Collected) : Prop where
  kept : Kept base s.words
  attached : ∀ i iW n, s.attached i = some (iW, n) → ∃ ws ∈ L, ws.number = i ∧ ws.mainWord = iW ∧
    ∀ l, lemmaAt base iW ws.homNum = some l → lemmaAt s.words iW n = some l

/-- The articles that have been attached remain so. -/
def AttachedOn (s s' : Collected) : Prop :=
  ∀ i, (s.attached i).isSome = true → (s'.attached i).isSome = true

theorem AttachedOn.refl (s : Collected) : AttachedOn s s := fun _ h => h

theorem AttachedOn.trans {a b c : Collected} (hab : AttachedOn a b) (hbc : AttachedOn b c) :
    AttachedOn a c := fun i h => hbc i (hab i h)

section Steps
variable {K : Dictionaries} {L : List TextWS} {base words' : List Word} {s : Collected}
variable {ws : TextWS}

/-- What a step does that attaches one article. -/
structure Attaches (ws : TextWS) (n : ℕ) (s s' : Collected) : Prop where
  kept : Kept s.words s'.words
  attached : s'.attached = Function.update s.attached ws.number (some (ws.mainWord, n))

theorem Attaches.on {n : ℕ} {s' : Collected} (h : Attaches ws n s s') : AttachedOn s s' := by
  intro i hi
  rw [h.attached]
  by_cases heq : i = ws.number
  · rw [heq, Function.update_self]
    rfl
  · rw [Function.update_of_ne heq]
    exact hi

theorem Attaches.self {n : ℕ} {s' : Collected} (h : Attaches ws n s s') :
    (s'.attached ws.number).isSome = true := by
  rw [h.attached, Function.update_self]
  rfl

theorem Tracks.attach {n : ℕ} {s' : Collected} (h : Tracks L base s) (hstep : Attaches ws n s s')
    {ws' : TextWS} (hws : ws' ∈ L) (hnumber : ws'.number = ws.number)
    (hmain : ws'.mainWord = ws.mainWord)
    (hlemma : ∀ l, lemmaAt base ws.mainWord ws'.homNum = some l →
      lemmaAt s'.words ws.mainWord n = some l) : Tracks L base s' := by
  refine ⟨h.kept.trans hstep.kept, ?_⟩
  intro i iW m hi
  rw [hstep.attached] at hi
  by_cases heq : i = ws.number
  · rw [heq, Function.update_self] at hi
    obtain ⟨hW, hm⟩ := Prod.mk.inj (Option.some.inj hi)
    refine ⟨ws', hws, by rw [hnumber, heq], by rw [hmain, hW], ?_⟩
    intro l hl
    rw [← hW] at hl
    rw [← hW, ← hm]
    exact hlemma l hl
  · rw [Function.update_of_ne heq] at hi
    obtain ⟨own, hown, hnum, hW, hl⟩ := h.attached i iW m hi
    exact ⟨own, hown, hnum, hW, fun l hbase => hstep.kept iW m l (hl l hbase)⟩

theorem attachSingle_attaches (s : Collected) (ws : TextWS) :
    Attaches ws (K.attachSingle s ws).1 s (K.attachSingle s ws).2 :=
  ⟨(K.takeSingleWord_spec ws s.words).1, rfl⟩

theorem attachSingle_lemma {l : String} (hl : lemmaAt s.words ws.mainWord ws.homNum = some l) :
    lemmaAt (K.attachSingle s ws).2.words ws.mainWord (K.attachSingle s ws).1 = some l :=
  (K.takeSingleWord_spec ws s.words).2 l hl

theorem collectOne_spec (h : Tracks L base s) (hws : ws ∈ L) :
    Tracks L base (K.collectOne s ws) ∧ AttachedOn s (K.collectOne s ws) ∧
      (((K.collectOne s ws).attached ws.number).isSome = true ∧
          (K.collectOne s ws).singles = s.singles ∨
        (K.collectOne s ws).singles = s.singles ++ [ws]) := by
  unfold Dictionaries.collectOne
  have hmain : ∀ {s' : Collected}, Attaches ws ws.homNum s s' → s'.singles = s.singles →
      Tracks L base s' ∧ AttachedOn s s' ∧ ((s'.attached ws.number).isSome = true ∧
        s'.singles = s.singles ∨ s'.singles = s.singles ++ [ws]) := by
    intro s' hstep hsingles
    refine ⟨h.attach hstep hws rfl rfl ?_, hstep.on, Or.inl ⟨hstep.self, hsingles⟩⟩
    intro l hl
    exact hstep.kept _ _ l (h.kept _ _ l hl)
  split_ifs
  · refine hmain ⟨Kept.modify ?_, rfl⟩ rfl
    intro w iH l hl
    rw [Word.lemmaAt_modifyHomonym (f := fun h => h.addLabel ws.article.title) fun _ => rfl]
    exact hl
  · exact ⟨⟨h.kept, h.attached⟩, fun _ hi => hi, Or.inr rfl⟩
  · exact hmain ⟨Kept.refl s.words, rfl⟩ rfl

/-- The whole third step. -/
theorem collect_spec (rest : List TextWS) (hrest : rest ⊆ L) :
    ∀ s : Collected, Tracks L base s → s.singles ⊆ L →
      Tracks L base (rest.foldl K.collectOne s) ∧ AttachedOn s (rest.foldl K.collectOne s) ∧
      s.singles ⊆ (rest.foldl K.collectOne s).singles ∧
      (rest.foldl K.collectOne s).singles ⊆ L ∧
      ∀ ws ∈ rest, ((rest.foldl K.collectOne s).attached ws.number).isSome = true ∨
        ws ∈ (rest.foldl K.collectOne s).singles := by
  induction rest with
  | nil =>
    intro s h hs
    refine ⟨h, AttachedOn.refl s, List.Subset.refl _, hs, ?_⟩
    intro ws hws
    cases hws
  | cons ws rest ih =>
    intro s h hs
    have hws := hrest List.mem_cons_self
    obtain ⟨htrack, hon, hone⟩ := collectOne_spec (K := K) h hws
    have hsub : s.singles ⊆ (K.collectOne s ws).singles ∧ (K.collectOne s ws).singles ⊆ L := by
      rcases hone with ⟨_, heq⟩ | heq
      · rw [heq]
        exact ⟨List.Subset.refl _, hs⟩
      · rw [heq]
        refine ⟨List.subset_append_left _ _, ?_⟩
        intro x hx
        rcases List.mem_append.mp hx with hx | hx
        · exact hs hx
        · rw [List.mem_singleton.mp hx]
          exact hws
    obtain ⟨htracks, hons, hsingles, hL, hall⟩ :=
      ih (fun x hx => hrest (List.mem_cons_of_mem ws hx)) (K.collectOne s ws) htrack hsub.2
    refine ⟨htracks, hon.trans hons, List.Subset.trans hsub.1 hsingles, hL, ?_⟩
    intro x hx
    rcases List.mem_cons.mp hx with heq | hx
    · rw [heq]
      rcases hone with ⟨hsome, _⟩ | hsome
      · exact Or.inl (hons _ hsome)
      · right
        apply hsingles
        rw [hsome]
        exact List.mem_append_right _ (List.mem_singleton_self ws)
    · exact hall x hx

/-- The other articles of a group go to the homonym of the first one. -/
theorem attachOthers_spec {n iW : ℕ} {hom : ℕ} (others : List TextWS) (hothers : others ⊆ L)
    (hkey : ∀ ws ∈ others, ws.mainWord = iW ∧ ws.homNum = hom) :
    ∀ s : Collected, Tracks L base s →
      (∀ l, lemmaAt base iW hom = some l → lemmaAt s.words iW n = some l) →
      Tracks L base (others.foldl (fun s ws => (K.attachSingle s { ws with homNum := n }).2) s) ∧
      AttachedOn s (others.foldl (fun s ws => (K.attachSingle s { ws with homNum := n }).2) s) ∧
      ∀ ws ∈ others, ((others.foldl (fun s ws =>
        (K.attachSingle s { ws with homNum := n }).2) s).attached ws.number).isSome = true := by
  induction others with
  | nil =>
    intro s h _
    refine ⟨h, AttachedOn.refl s, ?_⟩
    intro ws hws
    cases hws
  | cons ws others ih =>
    intro s h hn
    obtain ⟨hW, hhom⟩ := hkey ws List.mem_cons_self
    have hstep : Attaches _ _ s (K.attachSingle s { ws with homNum := n }).2 :=
      attachSingle_attaches s { ws with homNum := n }
    have htrack : Tracks L base (K.attachSingle s { ws with homNum := n }).2 := by
      apply h.attach hstep (hothers List.mem_cons_self) rfl rfl
      intro l hl
      apply attachSingle_lemma
      rw [hhom] at hl
      show lemmaAt s.words ws.mainWord n = some l
      rw [hW]
      exact hn l (hW ▸ hl)
    obtain ⟨htracks, hons, hall⟩ := ih (fun x hx => hothers (List.mem_cons_of_mem ws hx))
      (fun x hx => hkey x (List.mem_cons_of_mem ws hx)) _ htrack
      (fun l hl => hstep.kept iW n l (hn l hl))
    refine ⟨htracks, hstep.on.trans hons, ?_⟩
    intro x hx
    rcases List.mem_cons.mp hx with heq | hx
    · rw [heq]
      exact hons _ hstep.self
    · exact hall x hx

theorem attachGroup_spec {iW hom : ℕ} (group : List TextWS) (hgroup : group ⊆ L)
    (hkey : ∀ ws ∈ group, ws.mainWord = iW ∧ ws.homNum = hom) (h : Tracks L base s) :
    Tracks L base (K.attachGroup s group) ∧ AttachedOn s (K.attachGroup s group) ∧
      ∀ ws ∈ group, ((K.attachGroup s group).attached ws.number).isSome = true := by
  cases group with
  | nil =>
    refine ⟨h, AttachedOn.refl s, ?_⟩
    intro ws hws
    cases hws
  | cons ws others =>
    obtain ⟨hW, hhom⟩ := hkey ws List.mem_cons_self
    have hstep := attachSingle_attaches (K := K) s ws
    have hlemma : ∀ l, lemmaAt base iW hom = some l →
        lemmaAt (K.attachSingle s ws).2.words iW (K.attachSingle s ws).1 = some l := by
      intro l hl
      rw [← hW]
      apply attachSingle_lemma
      rw [hW, hhom]
      exact h.kept iW hom l hl
    have htrack : Tracks L base (K.attachSingle s ws).2 := by
      apply h.attach hstep (hgroup List.mem_cons_self) rfl rfl
      intro l hl
      rw [hW] at hl ⊢
      rw [hhom] at hl
      exact hlemma l hl
    obtain ⟨htracks, hons, hall⟩ := attachOthers_spec (K := K) others
      (fun x hx => hgroup (List.mem_cons_of_mem ws hx))
      (fun x hx => hkey x (List.mem_cons_of_mem ws hx)) _ htrack hlemma
    refine ⟨htracks, hstep.on.trans hons, ?_⟩
    intro x hx
    rcases List.mem_cons.mp hx with heq | hx
    · rw [heq]
      exact hons _ hstep.self
    · exact hall x hx

/-- The whole fourth step. -/
theorem attachGroups_spec {singles : List TextWS} (hsingles : singles ⊆ L)
    (keys : List (ℕ × ℕ × ℕ)) : ∀ s : Collected, Tracks L base s →
      Tracks L base (keys.foldl (fun t key =>
        K.attachGroup t (singles.filter fun ws => ws.key = key)) s) ∧
      AttachedOn s (keys.foldl (fun t key =>
        K.attachGroup t (singles.filter fun ws => ws.key = key)) s) ∧
      ∀ ws ∈ singles, ws.key ∈ keys → ((keys.foldl (fun t key =>
        K.attachGroup t (singles.filter fun ws => ws.key = key)) s).attached
          ws.number).isSome = true := by
  induction keys with
  | nil =>
    intro s h
    refine ⟨h, AttachedOn.refl s, ?_⟩
    intro ws _ hkey
    cases hkey
  | cons key keys ih =>
    intro s h
    have hmem : ∀ {x : TextWS}, x ∈ singles.filter (fun ws => ws.key = key) →
        x ∈ singles ∧ x.key = key := by
      intro x hx
      obtain ⟨hin, hkey⟩ := List.mem_filter.mp hx
      exact ⟨hin, of_decide_eq_true hkey⟩
    obtain ⟨htrack, hon, hall⟩ := attachGroup_spec (K := K)
      (singles.filter fun ws => ws.key = key) (fun x hx => hsingles (hmem hx).1)
      (fun x hx => ⟨congrArg Prod.fst (hmem hx).2, congrArg (fun k => k.2.1) (hmem hx).2⟩) h
    obtain ⟨htracks, hons, hothers⟩ := ih _ htrack
    refine ⟨htracks, hon.trans hons, ?_⟩
    intro ws hws hkey
    rcases List.mem_cons.mp hkey with heq | hkey
    · exact hons _ (hall ws (List.mem_filter.mpr ⟨hws, decide_eq_true heq⟩))
    · exact hothers ws hws hkey

end Steps

section Sequences
variable {words : List Word} {found : List FoundArticle} {restored : ℕ → Option ℕ}

theorem fixMain_eq {fa : FoundArticle} {number : ℕ} {ws : TextWS}
    (h : fixMain words restored fa number = some ws) :
    fa.article.isAuxDicArticle = true ∧ ws.number = number ∧ ws.mainWord = fa.mainWord ∧
      (mainHomonym words fa).or (restored fa.mainWord) = some ws.homNum := by
  rw [fixMain] at h
  split_ifs at h with haux
  obtain ⟨homNum, hhom, heq⟩ := Option.map_eq_some_iff.mp h
  rw [← heq]
  exact ⟨haux, rfl, rfl, hhom⟩

theorem mem_foundWS {ws : TextWS} :
    ws ∈ foundWS words found ↔ ∃ fa, found[ws.number]? = some fa ∧
      fixMain words (restorePredictedHomonyms (predictedGood found) words).2 fa ws.number =
        some ws := by
  rw [foundWS, List.mem_filterMap]
  constructor
  · intro h
    obtain ⟨⟨fa, i⟩, hfa, hws⟩ := h
    have hnumber := (fixMain_eq hws).2.1
    rw [hnumber]
    exact ⟨fa, List.mem_zipIdx_iff_getElem?.mp hfa, hws⟩
  · intro h
    obtain ⟨fa, hfa, hws⟩ := h
    exact ⟨(fa, ws.number), List.mem_zipIdx_iff_getElem?.mpr hfa, hws⟩

end Sequences

/-- Every article with a main homonym is attached to a homonym of its main word that has the lemma
which the main homonym has once the predicted lemmas are restored. The others are skipped. -/
theorem collectGztArticles_attached (K : Dictionaries) (H : HashOrder) (words : List Word)
    (multiWords : List MultiWord) (found : List FoundArticle) {i : ℕ} {fa : FoundArticle}
    (hfa : found[i]? = some fa) :
    let r := restorePredictedHomonyms (predictedGood found) words
    let s := collectGztArticles K H words multiWords found
    match fixMain words r.2 fa i with
    | none => s.attached i = none
    | some ws => ∃ n, s.attached i = some (fa.mainWord, n) ∧
      ∀ l, lemmaAt r.1 fa.mainWord ws.homNum = some l → lemmaAt s.words fa.mainWord n = some l := by
  intro r s
  have hstart : Tracks (foundWS words found) r.1 { words := r.1, multiWords } := by
    refine ⟨Kept.refl r.1, ?_⟩
    intro i iW n hi
    cases hi
  obtain ⟨htrack, _, _, hL, hall⟩ := collect_spec (K := K) (foundWS words found)
    (List.Subset.refl _) _ hstart (List.nil_subset _)
  obtain ⟨t, ht⟩ : ∃ t, t = (foundWS words found).foldl K.collectOne
    { words := r.1, multiWords } := ⟨_, rfl⟩
  rw [← ht] at htrack hL hall
  obtain ⟨htracks, hons, hgroups⟩ := attachGroups_spec (K := K) hL
    (H.order (t.singles.map TextWS.key).dedup) t htrack
  have hs : s = (H.order (t.singles.map TextWS.key).dedup).foldl (fun u key =>
      K.attachGroup u (t.singles.filter fun ws => ws.key = key)) t := by
    rw [ht]
    rfl
  rw [← hs] at htracks hons hgroups
  have hattached : ∀ ws ∈ foundWS words found, (s.attached ws.number).isSome = true := by
    intro ws hws
    rcases hall ws hws with hsome | hsingle
    · exact hons _ hsome
    · apply hgroups ws hsingle
      rw [(H.perm _).mem_iff, List.mem_dedup]
      exact List.mem_map_of_mem hsingle
  cases hfix : fixMain words r.2 fa i with
  | none =>
    cases hnone : s.attached i with
    | none => rfl
    | some at' =>
      obtain ⟨ws, hws, hnumber, _⟩ := htracks.attached i at'.1 at'.2 hnone
      obtain ⟨fa', hfa', hfix'⟩ := mem_foundWS.mp hws
      rw [hnumber, hfa] at hfa'
      rw [hnumber, ← Option.some.inj hfa'] at hfix'
      have hcontra := hfix.symm.trans hfix'
      cases hcontra
  | some ws =>
    have hnumber := (fixMain_eq hfix).2.1
    have hws : ws ∈ foundWS words found := by
      rw [mem_foundWS, hnumber]
      exact ⟨fa, hfa, hfix⟩
    have hsome := hattached ws hws
    rw [hnumber] at hsome
    obtain ⟨at', hat⟩ := Option.isSome_iff_exists.mp hsome
    obtain ⟨ws', hws', hnumber', hmain', hlemma⟩ := htracks.attached i at'.1 at'.2 hat
    obtain ⟨fa', hfa', hfix'⟩ := mem_foundWS.mp hws'
    rw [hnumber', hfa] at hfa'
    rw [hnumber', ← Option.some.inj hfa'] at hfix'
    have heq : ws = ws' := Option.some.inj (hfix.symm.trans hfix')
    rw [← heq, (fixMain_eq hfix).2.2.1] at hmain'
    rw [← heq, ← hmain'] at hlemma
    refine ⟨at'.2, ?_, hlemma⟩
    rw [hat, hmain']

/-- The lemma that an iterator stands at. -/
def lemmaOf (words : List Word) (iW : ℕ) : LemmaIter → Option String
  | .homonym id => lemmaAt words iW id
  | .predicted index =>
    ((words.getD iW default).predictedHomonyms[index]?).map Homonym.lemmaText

/-- What the gazetteer yields for a sentence: its lemmas are lemmas of the words. -/
structure GztFound (words : List Word) where
  found : List FoundArticle
  valid : ∀ fa ∈ found, ∀ (i : ℕ) (it : LemmaIter), fa.words[i]? = some (some it) →
    (lemmaOf words (fa.firstWord + i) it).isSome = true

/-- The words of all articles that are found by predicted homonyms, with these. -/
def allPredicted (found : List FoundArticle) : List (ℕ × ℕ) :=
  (found.filter fun fa => fa.article.isAuxDicArticle).flatMap FoundArticle.predictedWords

/-- The last predicted homonym of a word that an article is found by. -/
def lastPredicted (found : List FoundArticle) (iW : ℕ) : Option ℕ :=
  ((allPredicted found).reverse.find? fun wk => wk.1 == iW).map Prod.snd

/-- What is found by a lemma of its main word is attached to a homonym of the word with this lemma;
only what is found by a predicted lemma may be skipped, where the word has no homonym for it. -/
def AttachedByLemma (words : List Word) (found : List FoundArticle) (s : Collected) : Prop :=
  ∀ i fa it, found[i]? = some fa → fa.article.isAuxDicArticle = true → fa.mainLemma = some it →
    (s.attached i = none ∧ (words.getD fa.mainWord default).restorable = none ∧
      ∃ k, it = .predicted k) ∨
    ∃ n, s.attached i = some (fa.mainWord, n) ∧
      lemmaAt s.words fa.mainWord n = lemmaOf words fa.mainWord it

/-- In a word with a homonym to restore, what is found by that homonym or by a predicted one has the
lemma of the last predicted one. -/
def RestoresAlike (words : List Word) (found : List FoundArticle) : Prop :=
  ∀ fa ∈ found, fa.article.isAuxDicArticle = true → ∀ it, fa.mainLemma = some it →
    ∀ j, (words.getD fa.mainWord default).restorable = some j →
    ∀ k, lastPredicted found fa.mainWord = some k →
      (it = .homonym j ∨ ∃ k', it = .predicted k') →
      lemmaOf words fa.mainWord it = lemmaOf words fa.mainWord (.predicted k)

theorem foldl_update_eq (pairs : List (ℕ × ℕ)) (good : ℕ → Option ℕ) (iW : ℕ) :
    pairs.foldl (fun (good : ℕ → Option ℕ) (wk : ℕ × ℕ) =>
        Function.update good wk.1 (some wk.2)) good iW =
      ((pairs.reverse.find? fun wk => wk.1 == iW).map Prod.snd).or (good iW) := by
  induction pairs generalizing good with
  | nil => rfl
  | cons wk pairs ih =>
    rw [List.foldl_cons, ih, List.reverse_cons, List.find?_append]
    cases pairs.reverse.find? fun wk => wk.1 == iW with
    | some last => rfl
    | none =>
      by_cases heq : wk.1 = iW
      · rw [← heq, Function.update_self]
        simp
      · rw [Function.update_of_ne (Ne.symm heq)]
        simp [heq]

theorem predictedGood_eq (found : List FoundArticle) (iW : ℕ) :
    predictedGood found iW = lastPredicted found iW := by
  have hfold : ∀ (found : List FoundArticle) (good : ℕ → Option ℕ),
      found.foldl (fun good fa =>
        if fa.article.isAuxDicArticle then
          fa.predictedWords.foldl (fun good wk => Function.update good wk.1 (some wk.2)) good
        else good) good =
      (allPredicted found).foldl (fun (good : ℕ → Option ℕ) (wk : ℕ × ℕ) =>
        Function.update good wk.1 (some wk.2)) good := by
    intro found
    induction found with
    | nil =>
      intro good
      rfl
    | cons fa found ih =>
      intro good
      rw [List.foldl_cons, ih, allPredicted, allPredicted]
      by_cases haux : fa.article.isAuxDicArticle = true
      · have hcons : (fa :: found).filter (fun fa => fa.article.isAuxDicArticle) =
            fa :: found.filter fun fa => fa.article.isAuxDicArticle :=
          List.filter_cons_of_pos haux
        rw [if_pos haux, hcons, List.flatMap_cons, List.foldl_append]
      · have hcons : (fa :: found).filter (fun fa => fa.article.isAuxDicArticle) =
            found.filter fun fa => fa.article.isAuxDicArticle :=
          List.filter_cons_of_neg haux
        rw [if_neg haux, hcons]
  rw [predictedGood, hfold, foldl_update_eq, lastPredicted, Option.or_none]

theorem mem_predictedWords {fa : FoundArticle} {iW k : ℕ} :
    (iW, k) ∈ fa.predictedWords ↔
      ∃ i, fa.words[i]? = some (some (.predicted k)) ∧ fa.firstWord + i = iW := by
  rw [FoundArticle.predictedWords, List.mem_filterMap]
  constructor
  · intro h
    obtain ⟨⟨it, i⟩, hit, heq⟩ := h
    rw [List.mem_zipIdx_iff_getElem?] at hit
    match it, hit, heq with
    | some (.predicted index), hit, heq =>
      obtain ⟨hW, hk⟩ := Prod.mk.inj (Option.some.inj heq)
      rw [← hk]
      exact ⟨i, hit, hW⟩
  · intro h
    obtain ⟨i, hi, hW⟩ := h
    refine ⟨(some (.predicted k), i), List.mem_zipIdx_iff_getElem?.mpr hi, ?_⟩
    rw [← hW]

theorem mem_allPredicted {found : List FoundArticle} {wk : ℕ × ℕ} :
    wk ∈ allPredicted found ↔
      ∃ fa ∈ found, fa.article.isAuxDicArticle = true ∧ wk ∈ fa.predictedWords := by
  rw [allPredicted, List.mem_flatMap]
  constructor
  · intro h
    obtain ⟨fa, hfa, hwk⟩ := h
    obtain ⟨hin, haux⟩ := List.mem_filter.mp hfa
    exact ⟨fa, hin, haux, hwk⟩
  · intro h
    obtain ⟨fa, hin, haux, hwk⟩ := h
    exact ⟨fa, List.mem_filter.mpr ⟨hin, haux⟩, hwk⟩

section Restored
variable {words : List Word} (g : GztFound words)

theorem GztFound.lemmaOf_lastPredicted {iW k : ℕ} (h : lastPredicted g.found iW = some k) :
    ∃ l, lemmaOf words iW (.predicted k) = some l := by
  obtain ⟨wk, hfind, hk⟩ := Option.map_eq_some_iff.mp h
  have hW : wk.1 = iW := by
    have hbeq := List.find?_some hfind
    exact beq_iff_eq.mp hbeq
  have hmem := List.mem_reverse.mp (List.mem_of_find?_eq_some hfind)
  obtain ⟨fa, hfa, _, hin⟩ := mem_allPredicted.mp hmem
  obtain ⟨i, hi, hsum⟩ := mem_predictedWords.mp (show (wk.1, wk.2) ∈ _ from hin)
  rw [hk] at hi
  have hvalid := g.valid fa hfa i _ hi
  rw [hsum, hW] at hvalid
  exact Option.isSome_iff_exists.mp hvalid

theorem GztFound.lemmaOf_main {fa : FoundArticle} (hfa : fa ∈ g.found) {it : LemmaIter}
    (hit : fa.mainLemma = some it) : ∃ l, lemmaOf words fa.mainWord it = some l := by
  rw [FoundArticle.mainLemma, List.getD_eq_getElem?_getD] at hit
  have hget : fa.words[fa.mainRel]? = some (some it) := by
    cases hw : fa.words[fa.mainRel]? with
    | none =>
      rw [hw] at hit
      cases hit
    | some own =>
      rw [hw] at hit
      exact congrArg some hit
  exact Option.isSome_iff_exists.mp (g.valid fa hfa _ it hget)

theorem lastPredicted_main {found : List FoundArticle} {fa : FoundArticle} (hfa : fa ∈ found)
    (haux : fa.article.isAuxDicArticle = true) {k : ℕ} (hit : fa.mainLemma = some (.predicted k)) :
    ∃ last, lastPredicted found fa.mainWord = some last := by
  have hget : fa.words[fa.mainRel]? = some (some (.predicted k)) := by
    rw [FoundArticle.mainLemma, List.getD_eq_getElem?_getD] at hit
    cases hw : fa.words[fa.mainRel]? with
    | none =>
      rw [hw] at hit
      cases hit
    | some own =>
      rw [hw] at hit
      exact congrArg some hit
  have hmem : (fa.mainWord, k) ∈ allPredicted found :=
    mem_allPredicted.mpr ⟨fa, hfa, haux, mem_predictedWords.mpr ⟨fa.mainRel, hget, rfl⟩⟩
  have hsome : ((allPredicted found).reverse.find? fun wk => wk.1 == fa.mainWord).isSome = true := by
    rw [List.find?_isSome]
    exact ⟨_, List.mem_reverse.mpr hmem, beq_self_eq_true fa.mainWord⟩
  obtain ⟨wk, hwk⟩ := Option.isSome_iff_exists.mp hsome
  exact ⟨wk.2, by rw [lastPredicted, hwk, Option.map_some]⟩

theorem restored_getD (good : ℕ → Option ℕ) (words : List Word) (iW : ℕ) :
    (restorePredictedHomonyms good words).1.getD iW default =
      (words.getD iW default).restore (good iW) := by
  rw [restorePredictedHomonyms, List.getD_eq_getElem?_getD, List.getElem?_map,
    List.getElem?_zipIdx, List.getD_eq_getElem?_getD]
  cases words[iW]? with
  | none =>
    cases good iW <;> rfl
  | some w =>
    simp only [Option.map_some, Option.getD_some, Nat.zero_add]

theorem lemmaAt_restored {good : ℕ → Option ℕ} {iW k iH : ℕ} {l : String}
    (hk : good iW = some k) (hiH : (words.getD iW default).restorable = some iH)
    (hl : lemmaOf words iW (.predicted k) = some l) :
    lemmaAt (restorePredictedHomonyms good words).1 iW iH = some l := by
  rw [lemmaAt, restored_getD, hk, Word.restore_some hiH]
  obtain ⟨predicted, hp, hlemma⟩ := Option.map_eq_some_iff.mp hl
  obtain ⟨hlt, _⟩ := List.findIdx?_eq_some_iff_getElem.mp hiH
  show (Word.restoreHomonym _ iH _).lemmaAt iH = some l
  rw [Word.lemmaAt, Word.restoreHomonym, Word.modifyHomonym, List.getElem?_modify_eq,
    List.getElem?_eq_getElem hlt, List.getD_eq_getElem?_getD, hp]
  exact congrArg some hlemma

theorem lemmaAt_restored_ne {good : ℕ → Option ℕ} {iW iH : ℕ}
    (h : ∀ k, good iW = some k → (words.getD iW default).restorable ≠ some iH) :
    lemmaAt (restorePredictedHomonyms good words).1 iW iH = lemmaAt words iW iH := by
  rw [lemmaAt, restored_getD, lemmaAt]
  cases hk : good iW with
  | none => rfl
  | some k =>
    have hne := h k hk
    cases hj : (words.getD iW default).restorable with
    | none => rw [Word.restore_none hj]
    | some j =>
      rw [hj] at hne
      have hother : j ≠ iH := fun heq => hne (congrArg some heq)
      rw [Word.restore_some hj, Word.restoreHomonym, Word.lemmaAt, Word.lemmaAt, Word.modifyHomonym,
        List.getElem?_modify]
      cases (words.getD iW default).homonyms[iH]? with
      | none => rfl
      | some h =>
        show some (if j = iH then _ else h : Homonym).lemmaText = some h.lemmaText
        rw [if_neg hother]

theorem attached_homonym (K : Dictionaries) (H : HashOrder) (multiWords : List MultiWord) {i id : ℕ}
    {fa : FoundArticle} (hfa : g.found[i]? = some fa) (haux : fa.article.isAuxDicArticle = true)
    (hit : fa.mainLemma = some (.homonym id)) {l : String}
    (hl : lemmaAt (restorePredictedHomonyms (predictedGood g.found) words).1 fa.mainWord id =
      some l) :
    ∃ n, (collectGztArticles K H words multiWords g.found).attached i = some (fa.mainWord, n) ∧
      lemmaAt (collectGztArticles K H words multiWords g.found).words fa.mainWord n = some l := by
  have hspec := collectGztArticles_attached K H words multiWords g.found hfa
  have hfix : ∀ restored, fixMain words restored fa i = some
      { number := i, firstWord := fa.firstWord, lastWord := fa.lastWord, mainWord := fa.mainWord
        homNum := id, article := fa.article } := by
    intro restored
    rw [fixMain, if_pos haux, mainHomonym, hit]
    rfl
  dsimp only at hspec
  rw [hfix] at hspec
  obtain ⟨n, hn, hlemma⟩ := hspec
  exact ⟨n, hn, hlemma l hl⟩

/-- An article that is found by a predicted homonym is attached to the restored one, if the word has
a homonym for it. -/
theorem attached_predicted (K : Dictionaries) (H : HashOrder) (multiWords : List MultiWord)
    {i k : ℕ} {fa : FoundArticle} (hfa : g.found[i]? = some fa)
    (haux : fa.article.isAuxDicArticle = true) (hit : fa.mainLemma = some (.predicted k)) {last : ℕ}
    (hlast : lastPredicted g.found fa.mainWord = some last) :
    match (words.getD fa.mainWord default).restorable with
    | none => (collectGztArticles K H words multiWords g.found).attached i = none
    | some _ => ∃ n,
      (collectGztArticles K H words multiWords g.found).attached i = some (fa.mainWord, n) ∧
        lemmaAt (collectGztArticles K H words multiWords g.found).words fa.mainWord n =
          lemmaOf words fa.mainWord (.predicted last) := by
  have hspec := collectGztArticles_attached K H words multiWords g.found hfa
  have hgood : predictedGood g.found fa.mainWord = some last := by
    rw [predictedGood_eq]
    exact hlast
  have hfix : fixMain words (restorePredictedHomonyms (predictedGood g.found) words).2 fa i =
      (words.getD fa.mainWord default).restorable.map fun homNum =>
        { number := i, firstWord := fa.firstWord, lastWord := fa.lastWord, mainWord := fa.mainWord
          homNum, article := fa.article } := by
    rw [fixMain, if_pos haux, mainHomonym, hit, restorePredictedHomonyms]
    dsimp only
    rw [hgood]
    rfl
  obtain ⟨l, hl⟩ := g.lemmaOf_lastPredicted hlast
  dsimp only at hspec
  rw [hfix] at hspec
  cases hj : (words.getD fa.mainWord default).restorable with
  | none =>
    rw [hj] at hspec
    exact hspec
  | some j =>
    rw [hj] at hspec
    obtain ⟨n, hn, hlemma⟩ := hspec
    refine ⟨n, hn, ?_⟩
    rw [hl]
    exact hlemma l (lemmaAt_restored hgood hj hl)

end Restored

/-- Each article is attached to a homonym with the lemma it is found by just if, in every word with
a homonym to restore, what is found by that homonym or by a predicted one has the lemma of the last
predicted one. -/
theorem collectGztArticles_byLemma_iff (K : Dictionaries) (H : HashOrder) (words : List Word)
    (multiWords : List MultiWord) (g : GztFound words) :
    AttachedByLemma words g.found (collectGztArticles K H words multiWords g.found) ↔
      RestoresAlike words g.found := by
  constructor
  · intro h fa hfa haux it hit j hj last hlast hcase
    obtain ⟨i, hi⟩ := List.mem_iff_getElem?.mp hfa
    obtain ⟨l, hl⟩ := g.lemmaOf_lastPredicted hlast
    rcases h i fa it hi haux hit with ⟨_, hnone, _⟩ | ⟨n, hn, hlemma⟩
    · rw [hj] at hnone
      cases hnone
    · rw [← hlemma, hl]
      rcases hcase with heq | ⟨k, heq⟩
      · rw [heq] at hit
        have hrestored := lemmaAt_restored ((predictedGood_eq g.found fa.mainWord).trans hlast) hj hl
        obtain ⟨m, hm, hml⟩ := attached_homonym g K H multiWords hi haux hit hrestored
        rw [hn] at hm
        rw [(Prod.mk.inj (Option.some.inj hm)).2]
        exact hml
      · rw [heq] at hit
        have hspec := attached_predicted g K H multiWords hi haux hit hlast
        rw [hj] at hspec
        obtain ⟨m, hm, hml⟩ := hspec
        rw [hn] at hm
        rw [(Prod.mk.inj (Option.some.inj hm)).2, hml]
        exact hl
  · intro h i fa it hi haux hit
    have hfa := List.mem_iff_getElem?.mpr ⟨i, hi⟩
    cases it with
    | homonym id =>
      right
      obtain ⟨l, hl⟩ := g.lemmaOf_main hfa hit
      have hrestored : lemmaAt (restorePredictedHomonyms (predictedGood g.found) words).1
          fa.mainWord id = some l := by
        by_cases hother : ∀ k, predictedGood g.found fa.mainWord = some k →
            (words.getD fa.mainWord default).restorable ≠ some id
        · rw [lemmaAt_restored_ne hother]
          exact hl
        · push Not at hother
          obtain ⟨last, hgood, hid⟩ := hother
          have hlast := (predictedGood_eq g.found fa.mainWord).symm.trans hgood
          have halike := h fa hfa haux _ hit id hid last hlast (Or.inl rfl)
          rw [hl] at halike
          exact lemmaAt_restored hgood hid halike.symm
      obtain ⟨n, hn, hlemma⟩ := attached_homonym g K H multiWords hi haux hit hrestored
      exact ⟨n, hn, hlemma.trans hl.symm⟩
    | predicted k =>
      obtain ⟨last, hlast⟩ := lastPredicted_main hfa haux hit
      have hspec := attached_predicted g K H multiWords hi haux hit hlast
      cases hj : (words.getD fa.mainWord default).restorable with
      | none =>
        rw [hj] at hspec
        exact Or.inl ⟨hspec, rfl, k, rfl⟩
      | some j =>
        rw [hj] at hspec
        obtain ⟨n, hn, hlemma⟩ := hspec
        right
        refine ⟨n, hn, hlemma.trans ?_⟩
        exact (h fa hfa haux _ hit j hj last hlast (Or.inr ⟨k, rfl⟩)).symm

/-- A noun in the nominative singular. -/
def nounGrammems : HomonymGrammems where
  forms := {{136, 165, 174}}
  all := {136, 165, 174}

/-- A word that the dictionary does not know, with two predicted lemmas. -/
def unknownWord : Word where
  text := "gloka"
  homonyms := [{ lemmaText := "gloka" }]
  predictedHomonyms :=
    [{ lemmaText := "glok", grammems := nounGrammems },
      { lemmaText := "glokum", grammems := nounGrammems }]

/-- An article for each of them. -/
def predictedArticles : List FoundArticle :=
  [{ article := { title := "first", type := 4 }, firstWord := 0, words := [some (.predicted 0)] },
    { article := { title := "second", type := 5 }, firstWord := 0, words := [some (.predicted 1)] }]

/-- The lemmas of these articles are there. -/
def predictedFound : GztFound [unknownWord] where
  found := predictedArticles
  valid := by
    intro fa hfa i it hit
    rcases List.mem_cons.mp hfa with heq | hfa
    · rw [heq] at hit ⊢
      cases i with
      | zero => cases hit; rfl
      | succ i => cases hit
    · rw [List.mem_singleton.mp hfa] at hit ⊢
      cases i with
      | zero => cases hit; rfl
      | succ i => cases hit

/-- Grammems of an article that has none of its own are those of the homonym. -/
def plainDictionaries : Dictionaries where
  companyInQuotes := 1
  date := 2
  dateChain := 3
  isGeo := fun _ => false
  hasKWType := fun h type => h.gztArticle.any fun article => article.type == type
  mergeGrammems := fun g _ => g
  toLower := String.toLower

/-- Both articles are attached to the lemma of the second one. -/
theorem collectGztArticles_mixes :
    (collectGztArticles plainDictionaries ⟨id, List.Perm.refl⟩ [unknownWord] []
      predictedFound.found).attached 0 = some (0, 0) ∧
    lemmaAt (collectGztArticles plainDictionaries ⟨id, List.Perm.refl⟩ [unknownWord] []
      predictedFound.found).words 0 0 = some "glokum" ∧
    lemmaOf [unknownWord] 0 (.predicted 0) = some "glok" ∧
    ¬ AttachedByLemma [unknownWord] predictedFound.found
      (collectGztArticles plainDictionaries ⟨id, List.Perm.refl⟩ [unknownWord] []
        predictedFound.found) := by
  have hattached : (collectGztArticles plainDictionaries ⟨id, List.Perm.refl⟩ [unknownWord] []
      predictedFound.found).attached 0 = some (0, 0) := by decide +kernel
  have hlemma : lemmaAt (collectGztArticles plainDictionaries ⟨id, List.Perm.refl⟩ [unknownWord] []
      predictedFound.found).words 0 0 = some "glokum" := by decide +kernel
  refine ⟨hattached, hlemma, rfl, ?_⟩
  intro h
  rcases h 0 _ (.predicted 0) rfl rfl rfl with ⟨hnone, _⟩ | ⟨n, hn, heq⟩
  · rw [hattached] at hnone
    cases hnone
  · rw [hattached] at hn
    have hzero : 0 = n := (Prod.mk.inj (Option.some.inj hn)).2
    rw [← hzero] at heq
    have hsame : some "glokum" = some "glok" := hlemma.symm.trans heq
    exact absurd (Option.some.inj hsame) (by decide)

end TomitaParser.KeyWords
