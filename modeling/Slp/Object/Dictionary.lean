import Slp.Object.Labels

/-!
# A hash table is a dictionary

The calls that work on a table (`HashOp`), what they answer, and what they would answer if the
table were a map from key texts to values (`HashOp.spec`).  `DictRun` follows a table and a map
through the same calls; between two calls the heap may change in any way that leaves the texts of
the keys in the table alone.

The texts are labels of the keys (`textLabels`), so that every call ends and keeps the table the map
(`Refines.exists_call?`).  A number that is not an int is known here by an integer outside the int
range, of which only the text matters.
-/

namespace Slp

/-- The calls that work on a table. -/
inductive HashOp where
  | set (key value : Value)
  | get (key : Value)
  | contains (key : Value)
  | delete (key : Value)
  deriving DecidableEq, Repr

/-- The key a call is about. -/
def HashOp.key : HashOp → Value
  | .set key _ => key
  | .get key => key
  | .contains key => key
  | .delete key => key

/-- What a call returns. -/
inductive HashAnswer where
  | bool (b : Bool)
  | value (v : Value)
  deriving DecidableEq, Repr

/-- A map from key texts to values. -/
abbrev Dict := Bytes → Option Value

/-- A call on the map: the map after it, and the answer. -/
def HashOp.spec (text : Bytes) (h : Heap) (d : Dict) : HashOp → Dict × HashAnswer
  | .set _ value => (Function.update d text (some value), .bool true)
  | .get _ => (d, .value (h.dereferenceValue ((d text).getD .null)))
  | .contains _ => (d, .bool (d text).isSome)
  | .delete _ => (Function.update d text none, .bool (d text).isSome)

namespace HashObj

variable (fmt : Printf) (h : Heap)

/-- A call on the table: the table after it, and the answer; `none` when a loop does not end. -/
def call? (t : HashObj) : HashOp → Option (HashObj × HashAnswer)
  | .set key value => (set? fmt h t key value).map fun t => (t, .bool true)
  | .get key => some ((get fmt h t key).1, .value (get fmt h t key).2)
  | .contains key => some (t, .bool (contains fmt h t key))
  | .delete key => some ((delete fmt h t key).1, .bool (delete fmt h t key).2)

/-- A table and a map after the same calls. -/
inductive DictRun : Heap → HashObj → Dict → Prop where
  | start (h : Heap) (t : HashObj) (hentries : t.entries = []) (hcount : t.count = 0) :
      DictRun h t fun _ => none
  | heap {h : Heap} {t : HashObj} {d : Dict} (h' : Heap) (hrun : DictRun h t d)
      (hsteady : ∀ e ∈ t.liveEntries, keyRepr fmt h' e.key = keyRepr fmt h e.key) :
      DictRun h' t d
  | call {h : Heap} {t t' : HashObj} {d : Dict} {a : HashAnswer} {text : Bytes} (op : HashOp)
      (hrun : DictRun h t d) (hkey : op.key ≠ .null) (htext : keyRepr fmt h op.key = some text)
      (hcall : call? fmt h t op = some (t', a)) :
      DictRun h t' (op.spec text h d).1

/-- The texts of keys are their labels. -/
def textLabels : Labels fmt h Bytes where
  label := keyRepr fmt h
  code := hashString
  hash hkey := by
    unfold hashValue
    rw [hkey]
  equal hk hk' := by
    unfold keyEquals
    rw [hk, hk']
    exact beq_iff_eq

variable {fmt h} {t t' : HashObj} {d : Dict} {text : Bytes}

/-- A call ends with the answer of the map, and the table is the map after it. -/
theorem Refines.exists_call? {op : HashOp} (hr : Refines (textLabels fmt h) t d)
    (hkey : op.key ≠ .null) (htext : keyRepr fmt h op.key = some text) :
    ∃ t', call? fmt h t op = some (t', (op.spec text h d).2) ∧
      Refines (textLabels fmt h) t' (op.spec text h d).1 := by
  cases op with
  | set key value =>
    change key ≠ .null at hkey
    change keyRepr fmt h key = some text at htext
    obtain ⟨t', hset, hr'⟩ := hr.exists_set? (.inl hkey) htext value
    refine ⟨t', ?_, hr'⟩
    rw [call?, hset]
    rfl
  | get key =>
    change keyRepr fmt h key = some text at htext
    obtain ⟨hvalue, hr'⟩ := hr.getRaw htext
    refine ⟨_, ?_, hr'⟩
    rw [call?, get, hvalue]
    rfl
  | contains key =>
    change keyRepr fmt h key = some text at htext
    refine ⟨t, ?_, hr⟩
    rw [call?, hr.contains htext]
    rfl
  | delete key =>
    change keyRepr fmt h key = some text at htext
    obtain ⟨hfound, hr'⟩ := hr.delete htext
    refine ⟨_, ?_, hr'⟩
    rw [call?, hfound]
    rfl

/-- Along a run the table is the map. -/
theorem DictRun.refines (hrun : DictRun fmt h t d) : Refines (textLabels fmt h) t d := by
  induction hrun with
  | start h t hentries hcount => exact Refines.empty hentries hcount
  | heap h' _ hsteady ih => exact ih.steady rfl hsteady
  | call op _ hkey htext hcall ih =>
    obtain ⟨t', hcall', hr⟩ := ih.exists_call? hkey htext
    obtain ⟨rfl, -⟩ := Prod.mk.inj (Option.some.inj (hcall.symm.trans hcall'))
    exact hr

end HashObj

end Slp
