/-
  Blocks within blocks.

  * `Step`: a place for a length is reserved, bytes are written, or the block begun last is
    committed.  `closes` tells by counting whether steps end all blocks that are open;
  * `Forest` are blocks with bytes between them.  `Forest.bytes` has them from front to back, each
    length known before its contents; `Forest.steps` are the steps that write them.  Steps close
    exactly if they are those of one forest (`closes_iff_exists_unique`);
  * `run` takes steps on a tape, with the slots of the open blocks on a stack; `Gives` is a run
    that no commit refuses, `Gives.append` and `Gives.of_append` put runs together and apart;
  * `Patches` is what a commit does to a tape.  `Forest.carried` follows a run through a forest,
    `Forest.commits` finds each commit in it, and `slots_nest` has both.
-/
import BagFile.Proofs.Writing

namespace BagFile

namespace Nesting

/-- What is done to a tape on which blocks are written. -/
inductive Step where
  /-- begins a block -/
  | reserve
  | write (d : Dense)
  /-- ends the block begun last -/
  | commit
  deriving DecidableEq

/-- With `n` blocks open, the steps end these and all that they begin, and none before it has
    begun. -/
def closes : Nat → List Step → Bool
  | n, [] => n = 0
  | n, .reserve :: steps => closes (n + 1) steps
  | n, .write _ :: steps => closes n steps
  | 0, .commit :: _ => false
  | n + 1, .commit :: steps => closes n steps

/-- Blocks one behind the other, with bytes between them and blocks within them. -/
inductive Forest where
  | nil
  | data (d : Dense) (rest : Forest)
  | block (inner rest : Forest)
  deriving DecidableEq

namespace Forest

/-- All bytes from front to back: the contents of a block have their length in front. -/
def bytes : Forest → Bytes
  | nil => []
  | data d rest => d.bytes ++ rest.bytes
  | block inner rest => Bytes.sized inner.bytes ++ rest.bytes

/-- The steps that write the blocks. -/
def steps : Forest → List Step
  | nil => []
  | data d rest => .write d :: rest.steps
  | block inner rest => .reserve :: (inner.steps ++ .commit :: rest.steps)

/-- The lengths of the contents, in the order in which the blocks end. -/
def lengths : Forest → List Nat
  | nil => []
  | data _ rest => rest.lengths
  | block inner rest => inner.lengths ++ inner.bytes.length :: rest.lengths

/-- Four bytes hold the length of all contents. -/
def Fits : Forest → Prop
  | nil => True
  | data _ rest => rest.Fits
  | block inner rest => inner.Fits ∧ inner.bytes.length < 2 ^ 32 ∧ rest.Fits

end Forest

/-! ## Steps and forests -/

/-- Steps that stand where the contents of a block, or all of them, end. -/
def IsEnd : List Step → Prop
  | [] | .commit :: _ => True
  | _ => False

theorem isEnd_nil : IsEnd [] := trivial

theorem isEnd_commit (steps : List Step) : IsEnd (.commit :: steps) := trivial

namespace Forest

theorem closes_steps (f : Forest) (n : Nat) (rest : List Step) :
    closes n (f.steps ++ rest) = closes n rest := by
  induction f generalizing n rest with
  | nil => rfl
  | data d f ih => exact ih n rest
  | block inner f ihInner ih =>
    simp only [steps, List.cons_append, List.append_assoc, closes, ihInner, ih]

/-- Steps that close `n` blocks are those of a forest, and of another behind each commit. -/
theorem exists_of_closes {n : Nat} {l : List Step} (h : closes n l) : ∃ (f : Forest)
    (fs : List Forest), fs.length = n ∧ l = f.steps ++ fs.flatMap fun g => .commit :: g.steps := by
  induction l generalizing n with
  | nil =>
    simp only [closes, decide_eq_true_eq] at h
    exact ⟨nil, [], h.symm, rfl⟩
  | cons step l ih =>
    cases step with
    | reserve =>
      -- what closes the new block is its contents; what is behind it is the rest
      obtain ⟨inner, fs, hn, rfl⟩ := ih (n := n + 1) h
      cases fs with
      | nil => cases hn
      | cons rest fs =>
        refine ⟨block inner rest, fs, Nat.succ.inj hn, ?_⟩
        simp [steps]
    | write d =>
      obtain ⟨f, fs, hn, rfl⟩ := ih (n := n) h
      exact ⟨data d f, fs, hn, rfl⟩
    | commit =>
      cases n with
      | zero => cases h
      | succ n =>
        obtain ⟨f, fs, hn, rfl⟩ := ih (n := n) h
        exact ⟨nil, f :: fs, congrArg Nat.succ hn, rfl⟩

/-- A forest is known by its steps, whatever ends it. -/
theorem steps_inj {f g : Forest} {l l' : List Step} (hl : IsEnd l) (hl' : IsEnd l')
    (h : f.steps ++ l = g.steps ++ l') : f = g ∧ l = l' := by
  induction f generalizing g l l' with
  | nil =>
    cases g with
    | nil => exact ⟨rfl, h⟩
    | data d g => subst h; exact absurd hl id
    | block inner g => subst h; exact absurd hl id
  | data d f ih =>
    cases g with
    | nil => subst h; exact absurd hl' id
    | data d' g =>
      obtain ⟨hd, h⟩ := List.cons.inj h
      obtain ⟨rfl, rfl⟩ := ih hl hl' h
      cases hd
      exact ⟨rfl, rfl⟩
    | block inner g => cases h
  | block inner f ihInner ih =>
    cases g with
    | nil => subst h; exact absurd hl' id
    | data d g => cases h
    | block inner' g =>
      simp only [steps, List.cons_append, List.append_assoc, List.cons.injEq, true_and] at h
      obtain ⟨rfl, htail⟩ := ihInner (isEnd_commit _) (isEnd_commit _) h
      obtain ⟨rfl, rfl⟩ := ih hl hl' (List.cons.inj htail).2
      exact ⟨rfl, rfl⟩

end Forest

/-- **Steps close exactly if they are those of one forest.** -/
theorem closes_iff_exists_unique {l : List Step} : closes 0 l ↔ ∃! f : Forest, f.steps = l := by
  constructor
  · intro h
    obtain ⟨f, fs, hn, rfl⟩ := Forest.exists_of_closes h
    obtain rfl := List.length_eq_zero_iff.1 hn
    refine ⟨f, (List.append_nil _).symm, fun g hg => ?_⟩
    have hsteps : g.steps ++ [] = f.steps ++ [] := (List.append_nil _).trans hg
    exact (Forest.steps_inj isEnd_nil isEnd_nil hsteps).1
  · rintro ⟨f, rfl, -⟩
    have h := f.closes_steps 0 []
    rwa [List.append_nil] at h

/-! ## Runs -/

/-- One step on a tape, with the slots of the open blocks, the innermost first: the slots that are
    open behind it, and the length that a commit gives.  Where no block is open there is nothing
    to commit. -/
def Step.run (slots : List Slot) : Step → Tape.Op (List Slot × List UInt32)
  | .reserve => do return ((← Slot.reserve) :: slots, [])
  | .write d => do
    Tape.write d
    return (slots, [])
  | .commit =>
    match slots with
    | [] => return ([], [])
    | slot :: slots => do return (slots, [← slot.commit])

/-- Steps one after the other, and the lengths that their commits give. -/
def run : List Step → List Slot → Tape.Op (List Slot × List UInt32)
  | [], slots => return (slots, [])
  | step :: steps, slots => do
    let (slots, ns) ← step.run slots
    let (slots, ms) ← run steps slots
    return (slots, ns ++ ms)

theorem run_append (xs ys : List Step) (slots : List Slot) : run (xs ++ ys) slots = (do
    let (slots, ns) ← run xs slots
    let (slots, ms) ← run ys slots
    return (slots, ns ++ ms)) := by
  induction xs generalizing slots with
  | nil => simp [run]
  | cons x xs ih => simp [run, ih]

/-- From a tape with some open slots, the steps lead to another and give lengths. -/
def Gives (steps : List Step) (slots : List Slot) (t : Tape) (ns : List UInt32)
    (slots' : List Slot) (t' : Tape) : Prop :=
  (run steps slots).run t = .ok (slots', ns) t'

namespace Gives

variable {xs ys : List Step} {slots slots₁ slots₂ : List Slot} {t t₁ t₂ : Tape}
  {n : UInt32} {ns ms : List UInt32} {slot : Slot} {d : Dense}

theorem append (h : Gives xs slots t ns slots₁ t₁) (h' : Gives ys slots₁ t₁ ms slots₂ t₂) :
    Gives (xs ++ ys) slots t (ns ++ ms) slots₂ t₂ := by
  rw [Gives] at h h' ⊢
  rw [run_append, EStateM.run_bind, h]
  simp only [EStateM.run_bind, h']
  rfl

/-- The first steps of a run being known, the others have done the rest. -/
theorem of_append (h₁ : Gives xs slots t ms slots₁ t₁) (h : Gives (xs ++ ys) slots t ns slots₂ t₂) :
    ∃ ms', ns = ms ++ ms' ∧ Gives ys slots₁ t₁ ms' slots₂ t₂ := by
  rw [Gives] at h h₁
  rw [run_append, EStateM.run_bind, h₁] at h
  obtain ⟨⟨slots', ms'⟩, t', hys, hpure⟩ := run_bind_eq_ok h
  cases hpure
  exact ⟨ms', rfl, hys⟩

theorem reserve (slots : List Slot) (t : Tape) : Gives [.reserve] slots t [] (⟨t.pos⟩ :: slots)
    (t.written (Word.encode (0 : UInt32))) := rfl

theorem write (d : Dense) (slots : List Slot) (t : Tape) :
    Gives [.write d] slots t [] slots (t.written d) := rfl

theorem commit (slots : List Slot) (h : slot.commit.run t = .ok n t₁) :
    Gives [.commit] (slot :: slots) t [n] slots t₁ := by
  rw [Gives, run, EStateM.run_bind, Step.run, EStateM.run_bind, h]
  rfl

end Gives

/-! ## Bytes at the end -/

/-- Bytes were put at the end of a tape, and it stands behind them. -/
structure Appends (t : Tape) (bs : Bytes) (t' : Tape) : Prop where
  bytes_eq : t'.bytes = t.bytes ++ bs
  atEnd : t'.pos = t'.size

theorem Appends.trans {t t' t'' : Tape} {bs bs' : Bytes} (h : Appends t bs t')
    (h' : Appends t' bs' t'') : Appends t (bs ++ bs') t'' :=
  ⟨by rw [h'.bytes_eq, h.bytes_eq, List.append_assoc], h'.atEnd⟩

theorem Appends.pos_eq {t t' : Tape} {bs : Bytes} (h : Appends t bs t') :
    t'.pos = t.size + bs.length := by
  rw [h.atEnd, ← Tape.length_bytes, h.bytes_eq, List.length_append, Tape.length_bytes]

theorem appends_written {t : Tape} (ht : t.pos = t.size) (d : Dense) :
    Appends t d.bytes (t.written d) := by
  have hputs := Tape.puts_written (Nat.le_of_eq ht) d
  have hbytes : (t.written d).bytes = t.bytes ++ d.bytes := by
    rw [hputs.bytes_eq, ht, ← Tape.length_bytes, Bytes.place_length, List.flatten_singleton]
  refine ⟨hbytes, ?_⟩
  rw [hputs.pos_eq, ht, ← Tape.length_bytes, ← Tape.length_bytes, hbytes, List.length_append,
    List.flatten_singleton]

/-! ## Commits -/

/-- A commit that gives `n` has counted the bytes from the start of the contents to the position,
    and has put that length into its slot, and nothing anywhere else. -/
structure Patches (s : Slot) (n : UInt32) (t t' : Tape) : Prop where
  measured : s.contentStart + n.toNat = t.pos
  filled : (t'.bytes.drop s.pos).take 4 = Bytes.ofNat 4 n.toNat
  kept : ∀ i, i < s.pos ∨ s.contentStart ≤ i → t'.bytes[i]? = t.bytes[i]?
  pos_eq : t'.pos = t.pos

theorem getElem?_outside {bs d d' e : Bytes} (hd : d'.length = d.length) {i : Nat}
    (hi : i < bs.length ∨ bs.length + d.length ≤ i) :
    (bs ++ d' ++ e)[i]? = (bs ++ d ++ e)[i]? := by
  rcases hi with hi | hi
  · rw [List.append_assoc, List.append_assoc, List.getElem?_append_left hi,
      List.getElem?_append_left hi]
  · rw [List.getElem?_append_right (by rwa [List.length_append, hd]),
      List.getElem?_append_right (by rwa [List.length_append]), List.length_append,
      List.length_append, hd]

/-- The tape after the length `n` was put into a slot. -/
def committed (s : Slot) (n : Nat) (t : Tape) : Tape :=
  { ({ t with pos := s.pos } : Tape).written (Word.encode (UInt32.ofNat n)) with pos := t.pos }

theorem run_commit_of_pos {s : Slot} {t : Tape} {n : Nat} (hpos : t.pos = s.contentStart + n)
    (hn : n < 2 ^ 32) : s.commit.run t = .ok (UInt32.ofNat n) (committed s n t) := by
  have hcount : t.pos - s.contentStart = n := by rw [hpos, Nat.add_sub_cancel_left]
  have hstart : ¬t.pos < s.contentStart := by
    rw [hpos]
    exact Nat.not_lt.2 (Nat.le_add_right _ _)
  rw [Slot.run_commit, if_neg hstart, hcount, if_neg (Nat.not_le.2 hn)]
  rfl

section

variable {s : Slot} {t : Tape} {front d content : Bytes}

theorem bytes_committed (hbytes : t.bytes = front ++ d ++ content) (hfront : front.length = s.pos)
    (hd : d.length = 4) (n : Nat) :
    (committed s n t).bytes = front ++ Bytes.ofNat 4 n ++ content := by
  have hle : s.pos ≤ t.size := by
    rw [← Tape.length_bytes, hbytes, List.append_assoc, List.length_append, hfront]
    exact Nat.le_add_right _ _
  refine (Tape.puts_written (t := { t with pos := s.pos }) hle _).bytes_eq.trans ?_
  show t.bytes.place s.pos _ = _
  rw [List.flatten_singleton, Slot.bytes_encode_length, hbytes, ← hfront]
  exact Bytes.place_middle _ _ (by rw [hd, Bytes.length_ofNat])

theorem patches_committed (hbytes : t.bytes = front ++ d ++ content)
    (hfront : front.length = s.pos) (hd : d.length = 4) {n : Nat}
    (hpos : t.pos = s.contentStart + n) (hn : n < 2 ^ 32) :
    Patches s (UInt32.ofNat n) t (committed s n t) := by
  have hnat : (UInt32.ofNat n).toNat = n := UInt32.toNat_ofNat_of_lt' hn
  have hafter := bytes_committed hbytes hfront hd n
  refine ⟨by rw [hnat, hpos], ?_, fun i hi => ?_, rfl⟩
  · rw [hnat, hafter, ← hfront, List.append_assoc, List.drop_left,
      List.take_left' (Bytes.length_ofNat _ _)]
  · rw [hafter, hbytes]
    refine getElem?_outside (by rw [hd, Bytes.length_ofNat]) ?_
    rwa [hd, hfront]

end

/-- **A commit of what was put behind its slot** makes a block of it. -/
theorem commit_appends {t t' : Tape} {d bs : Bytes} (ht : t.pos = t.size)
    (h : Appends t (d ++ bs) t') (hd : d.length = 4) (hlen : bs.length < 2 ^ 32) :
    ∃ n t'', (Slot.mk t.pos).commit.run t' = .ok n t'' ∧ n.toNat = bs.length ∧
      Appends t (Bytes.sized bs) t'' ∧ Patches ⟨t.pos⟩ n t' t'' := by
  have hbytes : t'.bytes = t.bytes ++ d ++ bs := by rw [h.bytes_eq, List.append_assoc]
  have hfront : t.bytes.length = t.pos := by rw [ht, Tape.length_bytes]
  have hpos : t'.pos = (Slot.mk t.pos).contentStart + bs.length := by
    rw [h.pos_eq, Slot.contentStart, ht, List.length_append, hd, Nat.add_assoc]
  have hafter := bytes_committed (s := ⟨t.pos⟩) hbytes hfront hd bs.length
  refine ⟨_, _, run_commit_of_pos hpos hlen, UInt32.toNat_ofNat_of_lt' hlen, ⟨?_, ?_⟩,
    patches_committed hbytes hfront hd hpos hlen⟩
  · rw [hafter, Bytes.sized, List.append_assoc]
  · show t'.pos = _
    rw [h.atEnd, ← Tape.length_bytes, ← Tape.length_bytes, hafter, hbytes]
    simp only [List.length_append, Bytes.length_ofNat, hd]

/-- **A commit from before the contents** is refused, and leaves the tape as it is. -/
theorem commit_behind {s : Slot} {t : Tape} (h : t.pos < s.contentStart) :
    s.commit.run t = .error (.writer (.behindSlot s.pos)) t := by
  rw [Slot.run_commit, if_pos h]

/-! ## Runs through forests -/

/-- A run through a forest puts its bytes at the end, gives its lengths, and leaves the slots that
    were open before. -/
structure Carries (f : Forest) (slots : List Slot) (t : Tape) (ns : List UInt32) (t' : Tape) :
    Prop where
  gives : Gives f.steps slots t ns slots t'
  appends : Appends t f.bytes t'
  lengths : ns.map UInt32.toNat = f.lengths

namespace Forest

/-- A run through a block, as far as one through its contents is known: up to its commit, and
    what that does. -/
theorem carried_block {inner : Forest} (hlen : inner.bytes.length < 2 ^ 32)
    (hinner : ∀ slots {t}, t.pos = t.size → ∃ ns t', Carries inner slots t ns t')
    (slots : List Slot) {t : Tape} (ht : t.pos = t.size) : ∃ ns t₁ n t₂,
      Gives (.reserve :: inner.steps) slots t ns (⟨t.pos⟩ :: slots) t₁ ∧
      (Slot.mk t.pos).commit.run t₁ = .ok n t₂ ∧ Patches ⟨t.pos⟩ n t₁ t₂ ∧
      Appends t (Bytes.sized inner.bytes) t₂ ∧
      (ns ++ [n]).map UInt32.toNat = inner.lengths ++ [inner.bytes.length] := by
  have hzero := appends_written ht (Word.encode (0 : UInt32))
  obtain ⟨ns, t₁, hcarries⟩ := hinner (⟨t.pos⟩ :: slots) hzero.atEnd
  obtain ⟨n, t₂, hcommit, hn, hblock, hpatches⟩ :=
    commit_appends ht (hzero.trans hcarries.appends) (Word.length_encode _) hlen
  refine ⟨ns, t₁, n, t₂, (Gives.reserve slots t).append hcarries.gives, hcommit, hpatches, hblock,
    ?_⟩
  rw [List.map_append, hcarries.lengths, List.map_singleton, hn]

/-- **A forest is carried over**: no commit in it is refused. -/
theorem carried {f : Forest} (hfits : f.Fits) (slots : List Slot) {t : Tape}
    (ht : t.pos = t.size) : ∃ ns t', Carries f slots t ns t' := by
  induction f generalizing slots t with
  | nil => exact ⟨[], t, rfl, ⟨(List.append_nil _).symm, ht⟩, rfl⟩
  | data d f ih =>
    have hwritten := appends_written ht d
    obtain ⟨ns, t', hrest⟩ := ih hfits slots hwritten.atEnd
    exact ⟨ns, t', (Gives.write d slots t).append hrest.gives, hwritten.trans hrest.appends,
      hrest.lengths⟩
  | block inner f ihInner ih =>
    obtain ⟨hinner, hlen, hfits⟩ := hfits
    obtain ⟨ns, t₁, n, t₂, hbegun, hcommit, -, hblock, hlengths⟩ :=
      carried_block hlen (fun slots _ => ihInner hinner slots) slots ht
    obtain ⟨ms, t', hrest⟩ := ih hfits slots hblock.atEnd
    refine ⟨ns ++ ([n] ++ ms), t', ?_, hblock.trans hrest.appends, ?_⟩
    · exact hbegun.append ((Gives.commit slots hcommit).append hrest.gives)
    · rw [← List.append_assoc, List.map_append, hlengths, hrest.lengths, lengths,
        List.append_assoc]
      rfl

/-- A commit among the steps of a block is within the contents, its own, or behind it. -/
theorem of_block_steps {inner rest : Forest} {before after : List Step}
    (h : (block inner rest).steps = before ++ .commit :: after) :
    (∃ within tail, before = .reserve :: within ∧ inner.steps = within ++ .commit :: tail) ∨
      before = .reserve :: inner.steps ∨
      ∃ between, before = .reserve :: inner.steps ++ .commit :: between ∧
        rest.steps = between ++ .commit :: after := by
  obtain - | ⟨step, before⟩ := before
  · cases h
  obtain ⟨rfl, htail⟩ := List.cons.inj h
  rcases List.append_eq_append_iff.1 htail with ⟨behind, rfl, hbehind⟩ | ⟨tail, hinner, htail⟩
  · obtain - | ⟨step, between⟩ := behind
    · exact .inr (.inl (by rw [List.append_nil]))
    · obtain ⟨rfl, hrest⟩ := List.cons.inj hbehind
      exact .inr (.inr ⟨between, rfl, hrest⟩)
  · obtain - | ⟨step, tail⟩ := tail
    · exact .inr (.inl (by rw [hinner, List.append_nil]))
    · obtain ⟨rfl, -⟩ := List.cons.inj htail
      exact .inl ⟨before, tail, rfl, hinner⟩

end Forest

/-! ## Each commit of a run -/

/-- The steps lead to a tape on which the commit of the innermost slot gives `n` and changes
    nothing else. -/
def Commits (steps : List Step) (slots : List Slot) (t : Tape) (ns : List UInt32) (n : UInt32) :
    Prop :=
  ∃ slot slots' t₁ t₂, Gives steps slots t ns (slot :: slots') t₁ ∧
    slot.commit.run t₁ = .ok n t₂ ∧ Patches slot n t₁ t₂

section

variable {xs ys : List Step} {slots slots₁ slots₂ : List Slot} {t t₁ t₂ : Tape}
  {ns ms : List UInt32} {n : UInt32}

theorem Gives.commits (h : Gives xs slots t ns slots₁ t₁) (h' : Commits ys slots₁ t₁ ms n) :
    Commits (xs ++ ys) slots t (ns ++ ms) n := by
  obtain ⟨slot, slots', t₁, t₂, hgives, hcommit⟩ := h'
  exact ⟨slot, slots', t₁, t₂, h.append hgives, hcommit⟩

/-- What a commit gives is among the lengths of the whole run, at its place. -/
theorem Gives.of_commits (h : Gives (xs ++ .commit :: ys) slots t ns slots₂ t₂)
    (h' : Commits xs slots t ms n) : ∃ ms', ns = ms ++ n :: ms' := by
  obtain ⟨slot, slots', t₁, t', hgives, hcommit, -⟩ := h'
  obtain ⟨ms', rfl, hrest⟩ := Gives.of_append hgives h
  obtain ⟨ms'', rfl, -⟩ := Gives.of_append (Gives.commit slots' hcommit) hrest
  exact ⟨ms'', rfl⟩

end

/-- **Each commit in a forest** fills in the length of its own block and changes nothing else. -/
theorem Forest.commits {f : Forest} (hfits : f.Fits) (slots : List Slot) {t : Tape}
    (ht : t.pos = t.size) {before after : List Step}
    (hsteps : f.steps = before ++ .commit :: after) : ∃ ns n, Commits before slots t ns n := by
  induction f generalizing slots t before after with
  | nil =>
    have hnil := List.append_eq_nil_iff.1 hsteps.symm
    cases hnil.2
  | data d f ih =>
    obtain - | ⟨step, before⟩ := before
    · cases hsteps
    obtain ⟨rfl, htail⟩ := List.cons.inj hsteps
    obtain ⟨ns, n, hcommits⟩ := ih hfits slots (appends_written ht d).atEnd htail
    exact ⟨_, n, (Gives.write d slots t).commits hcommits⟩
  | block inner f ihInner ih =>
    obtain ⟨hinner, hlen, hfits⟩ := hfits
    obtain ⟨ns, t₁, n, t₂, hbegun, hcommit, hpatches, hblock, -⟩ :=
      carried_block hlen (fun slots _ => carried hinner slots) slots ht
    rcases of_block_steps hsteps with
      ⟨within, tail, rfl, hwithin⟩ | rfl | ⟨between, rfl, hbetween⟩
    · have hzero := appends_written ht (Word.encode (0 : UInt32))
      obtain ⟨ms, m, hcommits⟩ := ihInner hinner (⟨t.pos⟩ :: slots) hzero.atEnd hwithin
      exact ⟨_, m, (Gives.reserve slots t).commits hcommits⟩
    · exact ⟨ns, n, _, slots, t₁, t₂, hbegun, hcommit, hpatches⟩
    · obtain ⟨ms, m, hcommits⟩ := ih hfits slots hblock.atEnd hbetween
      exact ⟨_, m, hbegun.commits ((Gives.commit slots hcommit).commits hcommits)⟩

/-- **Lengths that are filled in later nest.**  On a tape that stands at its end, steps that close
    all their blocks are those of one forest.  If four bytes hold the length of all contents, no
    commit is refused: the bytes of the forest, each length in front of its contents, are put
    behind what was there, and the tape stands behind them.  The commits give the lengths of the
    contents, and each changes nothing but its own slot.  On any tape that stands before the
    contents a commit is refused, and leaves it as it is. -/
theorem slots_nest {steps : List Step} (hsteps : closes 0 steps) {t : Tape}
    (ht : t.pos = t.size) :
    (∃! f : Forest, f.steps = steps) ∧
    (∀ f : Forest, f.steps = steps → f.Fits → ∃ ns t', Carries f [] t ns t' ∧
      ∀ before after, steps = before ++ .commit :: after →
        ∃ ms n ms', ns = ms ++ n :: ms' ∧ Commits before [] t ms n) ∧
    ∀ (s : Slot) (t : Tape), t.pos < s.contentStart →
      s.commit.run t = .error (.writer (.behindSlot s.pos)) t := by
  refine ⟨closes_iff_exists_unique.1 hsteps, ?_, fun _ _ => commit_behind⟩
  rintro f rfl hfits
  obtain ⟨ns, t', hcarries⟩ := Forest.carried hfits [] ht
  refine ⟨ns, t', hcarries, fun before after hsteps => ?_⟩
  obtain ⟨ms, n, hcommits⟩ := Forest.commits hfits [] ht hsteps
  have hgives := hcarries.gives
  rw [hsteps] at hgives
  obtain ⟨ms', hns⟩ := hgives.of_commits hcommits
  exact ⟨ms, n, ms', hns, hcommits⟩

/-- A block of one block. -/
def sampleForest : Forest := .block (.block (.data (.ofBytes [97, 98, 99]) .nil) .nil) .nil

/-- A tape with two bytes on it. -/
def sampleTape : Tape := Tape.empty.written (.ofBytes [120, 120])

/-- A block of one block, behind two bytes. -/
theorem slots_nest_sample : closes 0 sampleForest.steps ∧ sampleTape.pos = sampleTape.size ∧
    sampleForest.steps =
      [.reserve, .reserve, .write (.ofBytes [97, 98, 99]), .commit, .commit] ∧
    ∃ ns t', Gives sampleForest.steps [] sampleTape ns [] t' ∧
      t'.bytes = [120, 120, 7, 0, 0, 0, 3, 0, 0, 0, 97, 98, 99] ∧ t'.pos = t'.size ∧
      ns.map UInt32.toNat = [3, 7] := by
  have hsteps : closes 0 sampleForest.steps := by decide
  have ht : sampleTape.pos = sampleTape.size := by decide
  have hfits : sampleForest.Fits := ⟨⟨trivial, by decide, trivial⟩, by decide, trivial⟩
  obtain ⟨ns, t', hcarries, -⟩ := (slots_nest hsteps ht).2.1 sampleForest rfl hfits
  exact ⟨hsteps, ht, rfl, ns, t', hcarries.gives, hcarries.appends.bytes_eq,
    hcarries.appends.atEnd, hcarries.lengths⟩

end Nesting

end BagFile
