import FieldNotes.Dispatcher

/-! # What is remembered of arguments

An argument is remembered for a tag, that is for a name and a text as it is written.

* `Memo.find?_insert`, `Memo.find?_forget`: what is found after a change.
* `Memo.Kept`: every argument that is remembered is what the handler reads that is bound to the
  name now.  It holds of an empty memo, and is kept by asking (`Memo.Kept.ask`) and by changes of
  bindings (`Dispatcher.kept_bind`, `Dispatcher.kept_unbind`).
* `Memo.ask_result`: with such a memo, asking has the result of reading anew.
* `Memo.Agree`: two memos that give the same arguments, as a memo does before and after it is asked.
-/

namespace FieldNotes

namespace Memo

/-! ## Changes -/

theorem find?_insert (m : Memo) (t t' : Tag) (arg : Arg) :
    (m.insert t arg).find? t' = if t' = t then some arg else m.find? t' := by
  rcases t with ⟨n, q⟩
  rcases t' with ⟨n', q'⟩
  by_cases h : (n', q') = (n, q)
  · rcases Prod.mk.inj h with ⟨rfl, rfl⟩
    simp [find?, insert]
  · have hkey : ((n', q') == (n, q)) = false := beq_eq_false_iff_ne.2 h
    have htag : ¬ (⟨n', q'⟩ : Tag) = ⟨n, q⟩ := by
      intro heq
      rcases Tag.mk.inj heq with ⟨rfl, rfl⟩
      exact h rfl
    simp only [find?, insert, List.lookup_cons, hkey, if_neg htag]

theorem find?_forget (m : Memo) (name : String) (t : Tag) :
    (m.forget name).find? t = if t.name = name then none else m.find? t := by
  rw [find?, forget, lookup_filter m (fun k => k.1 != name) (t.name, t.quoted)]
  by_cases hn : t.name = name <;> simp [hn, find?]

/-! ## Arguments that can be trusted -/

/-- Every remembered argument is what the handler reads that is bound to the name of its tag. -/
def Kept (handler? : String → Option Handler) (m : Memo) : Prop :=
  ∀ t arg, m.find? t = some arg → ∃ h, handler? t.name = some h ∧ (h.readTag t).1 = .ok arg

variable {handler? : String → Option Handler} {m : Memo}

theorem Kept.nil : Kept handler? [] := by
  intro t arg h
  exact absurd h (by simp [find?])

theorem ask_result {h : Handler} {t : Tag} (hm : m.Kept handler?) (hh : handler? t.name = some h) :
    (m.ask h t).result = (h.readTag t).1 := by
  cases hf : m.find? t with
  | some arg =>
    rcases hm t arg hf with ⟨h', hh', hread⟩
    -- the handler that read it is the one that is bound now
    have hsame : h' = h := Option.some.inj (hh'.symm.trans hh)
    subst hsame
    simp only [ask, hf, hread]
  | none =>
    rcases hr : h.readTag t with ⟨r, es⟩
    cases r <;> simp only [ask, hf, hr]

theorem Kept.ask {h : Handler} {t : Tag} (hm : m.Kept handler?) (hh : handler? t.name = some h) :
    (m.ask h t).memo.Kept handler? := by
  cases hf : m.find? t with
  | some arg => simpa only [Memo.ask, hf] using hm
  | none =>
    rcases hr : h.readTag t with ⟨r, es⟩
    cases r with
    | error e => simpa only [Memo.ask, hf, hr] using hm
    | ok arg =>
      simp only [Memo.ask, hf, hr]
      intro t' arg' hfound
      rw [find?_insert] at hfound
      by_cases ht : t' = t
      · -- the tag that was just read
        subst ht
        rw [if_pos rfl] at hfound
        rcases Option.some.inj hfound with rfl
        exact ⟨h, hh, by rw [hr]⟩
      · rw [if_neg ht] at hfound
        exact hm t' arg' hfound

/-- A tag that the handler bound to its name cannot read is not remembered. -/
theorem Kept.find?_of_broken {h : Handler} {t : Tag} {f : Fault} (hm : m.Kept handler?)
    (hh : handler? t.name = some h) (hf : (h.readTag t).1 = .error f) : m.find? t = none := by
  rw [Option.eq_none_iff_forall_ne_some]
  intro arg harg
  -- a remembered argument would be one that this very handler has read
  rcases hm t arg harg with ⟨h', hh', hread⟩
  rcases Option.some.inj (hh'.symm.trans hh) with rfl
  rw [hf] at hread
  exact absurd hread (by simp)

/-- What cannot be read is read anew whenever it is asked for, and leaves the memo as it is. -/
theorem ask_of_broken {h : Handler} {t : Tag} {f : Fault} (hnone : m.find? t = none)
    (hf : (h.readTag t).1 = .error f) : m.ask h t = ⟨.error f, m, (h.readTag t).2⟩ := by
  rcases hr : h.readTag t with ⟨r, es⟩
  rw [hr] at hf
  subst hf
  simp only [Memo.ask, hnone, hr]

/-- What can be read and is not remembered is read, and remembered from then on. -/
theorem ask_of_new {h : Handler} {t : Tag} {arg : Arg} {events : List Event}
    (hnone : m.find? t = none) (hread : h.readTag t = (.ok arg, events)) :
    m.ask h t = ⟨.ok arg, m.insert t arg, events⟩ := by
  simp only [ask, hnone, hread]

/-- To ask for one tag leaves what is remembered of the others. -/
theorem find?_ask_of_ne {t t' : Tag} (ht : t ≠ t') (h : Handler) :
    (m.ask h t').memo.find? t = m.find? t := by
  cases hf : m.find? t' with
  | some arg => simp only [Memo.ask, hf]
  | none =>
    rcases hr : h.readTag t' with ⟨r, es⟩
    cases r with
    | error e => simp only [Memo.ask, hf, hr]
    | ok arg => simp only [Memo.ask, hf, hr, find?_insert, if_neg ht]

/-- A change of one binding leaves what is kept of the others. -/
theorem Kept.rebind {handler?' : String → Option Handler} {name : String} (hm : m.Kept handler?)
    (hother : ∀ n, n ≠ name → handler?' n = handler? n) : (m.forget name).Kept handler?' := by
  intro t arg hfound
  rw [find?_forget] at hfound
  by_cases hn : t.name = name
  · simp [hn] at hfound
  · rw [if_neg hn] at hfound
    rw [hother t.name hn]
    exact hm t arg hfound

/-! ## Memos that agree -/

/-- The handlers that are bound to names get the same arguments from both memos. -/
def Agree (handler? : String → Option Handler) (m m' : Memo) : Prop :=
  ∀ t h, handler? t.name = some h → (m.ask h t).result = (m'.ask h t).result

/-- What is asked for a second time is answered as before. -/
theorem result_ask_ask (m : Memo) (h : Handler) (t : Tag) :
    ((m.ask h t).memo.ask h t).result = (m.ask h t).result := by
  cases hfound : m.find? t with
  | some arg => simp only [ask, hfound]
  | none =>
    rcases hread : h.readTag t with ⟨result, events⟩
    cases result with
    | error f => simp only [ask, hfound, hread]
    | ok arg => simp only [ask, hfound, hread, find?_insert, if_true]

namespace Agree

theorem refl (m : Memo) : m.Agree handler? m :=
  fun _ _ _ => rfl

theorem symm {m' : Memo} (hm : m.Agree handler? m') : m'.Agree handler? m :=
  fun t h hh => (hm t h hh).symm

theorem trans {m' m'' : Memo} (hm : m.Agree handler? m') (hm' : m'.Agree handler? m'') :
    m.Agree handler? m'' :=
  fun t h hh => (hm t h hh).trans (hm' t h hh)

/-- What was asked for before makes no difference to what is answered. -/
theorem of_ask {h : Handler} {t : Tag} (hh : handler? t.name = some h) :
    (m.ask h t).memo.Agree handler? m := by
  intro t' h' hh'
  by_cases ht : t' = t
  · subst ht
    rcases Option.some.inj (hh.symm.trans hh') with rfl
    exact result_ask_ask m h t'
  · have hfound := find?_ask_of_ne (m := m) ht h
    unfold ask at hfound ⊢
    rw [hfound]
    cases m.find? t' with
    | some arg => rfl
    | none =>
      rcases h'.readTag t' with ⟨result, events⟩
      cases result <;> rfl

end Agree

end Memo

/-- A tag is read by having its handler read the text between its quotes. -/
theorem Handler.readTag_ok_iff {h : Handler} {t : Tag} {arg : Arg} :
    (h.readTag t).1 = .ok arg ↔ ∃ text, t.text = .ok text ∧ (h.parse text).result = .ok arg := by
  cases htext : t.text with
  | error e => simp [readTag, htext]
  | ok text =>
    cases hparse : (h.parse text).result <;> simp [readTag, htext, hparse]

/-- A handler that takes texts as they are reads every text. -/
theorem Handler.readTag_ofRun (run : Site → Arg → Effect) {t : Tag} {text : String}
    (htext : t.text = .ok text) :
    (Handler.ofRun run).readTag t = (.ok (.text text), [.parsed t text]) := by
  simp only [readTag, htext, ofRun, asText, List.map_nil, List.nil_append]

theorem calls_readTag (h : Handler) (t : Tag) : calls (h.readTag t).2 = [] := by
  simp only [Handler.readTag]
  split
  · rfl
  · split
    · exact calls_reported _
    · rw [calls_append, calls_reported]
      rfl

theorem Memo.calls_ask (m : Memo) (h : Handler) (t : Tag) : calls (m.ask h t).events = [] := by
  have hread := calls_readTag h t
  simp only [Memo.ask]
  split
  · rfl
  · split <;> simp_all

namespace Dispatcher

variable {d : Dispatcher}

theorem kept_bind (name : String) (h : Handler) (hm : d.memo.Kept d.handler?) :
    (d.bind name h).memo.Kept (d.bind name h).handler? := by
  refine hm.rebind ?_
  intro n hn
  rw [find?_bind, if_neg hn]

theorem kept_unbind (name : String) (hm : d.memo.Kept d.handler?) :
    (d.unbind name).memo.Kept (d.unbind name).handler? := by
  refine hm.rebind ?_
  intro n hn
  rw [find?_unbind, if_neg hn]

end Dispatcher

end FieldNotes
