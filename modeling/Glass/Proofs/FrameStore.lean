import Glass.Program

/-!
What a store of frames keeps. Frames are built in order, each on an earlier one or on none, and from
then on only the programs that run in a frame give it anything. So a frame holds what it was built
with, overwritten by what was given to it by those programs that had a tree, and a name seen from a
frame has the value that the nearest frame on the way out binds it to, if a look-up gets that far.
-/

namespace Glass

/-- Every parent comes before the frames that are built on it. -/
def ParentsFirst (frames : List Frame) : Prop :=
  ∀ (i : Nat) (f : Frame) (parent : Nat), frames[i]? = some f → f.parent = some parent → parent < i

namespace Store

theorem get?_cons (f : Frame) (older : List Frame) (i : Nat) :
    get? ⟨f :: older⟩ i = if i = older.length then some f else get? ⟨older⟩ i := by
  unfold get?
  rw [List.reverse_cons, List.getElem?_append, List.length_reverse]
  rcases Nat.lt_trichotomy i older.length with hlt | rfl | hgt
  · rw [if_pos hlt, if_neg (Nat.ne_of_lt hlt)]
  · simp
  · have hnone : [f][i - older.length]? = none := List.getElem?_eq_none (by simp; omega)
    rw [if_neg (Nat.lt_asymm hgt), if_neg (Nat.ne_of_gt hgt), hnone]
    exact (List.getElem?_eq_none (by simp; omega)).symm

theorem lt_of_get? {s : Store} {i : Nat} {f : Frame} (h : s.get? i = some f) :
    i < s.frames.length := by
  have hlt := (List.getElem?_eq_some_iff.mp h).1
  rwa [List.length_reverse] at hlt

theorem exists_get? {s : Store} {i : Nat} (h : i < s.frames.length) : ∃ f, s.get? i = some f :=
  ⟨_, List.getElem?_eq_getElem (by rwa [List.length_reverse])⟩

/-- Parents come first among the frames of the store. -/
def Rooted (s : Store) : Prop := ParentsFirst s.frames.reverse

theorem Rooted.of_cons {f : Frame} {older : List Frame} (h : Rooted ⟨f :: older⟩) :
    Rooted ⟨older⟩ := by
  intro i g parent hget hparent
  refine h i g parent ?_ hparent
  refine (get?_cons f older i).trans ?_
  rwa [if_neg (Nat.ne_of_lt (lt_of_get? hget))]

theorem layers_cons_of_lt (f : Frame) {older : List Frame} {i : Nat} (h : i < older.length) :
    layers (f :: older) i = layers older i := by
  rw [layers, if_neg (Nat.ne_of_lt h)]

/-- What is seen from a frame is its own bindings and then what is seen from its parent. -/
theorem layers_eq {s : Store} (hs : s.Rooted) {i : Nat} {f : Frame} (hget : s.get? i = some f) :
    layers s.frames i =
      f.bindings ::
        match f.parent with
        | none => []
        | some parent => layers s.frames parent := by
  obtain ⟨frames⟩ := s
  induction frames with
  | nil => cases hget
  | cons g older ih =>
      have hbefore : ∀ parent, f.parent = some parent → parent < older.length := by
        intro parent hparent
        have hlt : parent < i := hs i f parent hget hparent
        have hi : i < older.length + 1 := lt_of_get? hget
        omega
      have holder : (match f.parent with
            | none => []
            | some parent => layers (g :: older) parent) =
          match f.parent with
          | none => []
          | some parent => layers older parent := by
        cases hparent : f.parent with
        | none => rfl
        | some parent => exact layers_cons_of_lt g (hbefore parent hparent)
      rw [get?_cons] at hget
      rw [holder, layers]
      split
      · rename_i hlast
        rw [if_pos hlast] at hget
        cases hget
        rfl
      · rename_i hlast
        rw [if_neg hlast] at hget
        exact ih hs.of_cons hget

/-- The frames on the way out from a frame, which comes first. -/
inductive Chain (s : Store) : (index : Nat) → List Frame → Prop where
  | root {i : Nat} {f : Frame} : s.get? i = some f → f.parent = none → Chain s i [f]
  | child {i parent : Nat} {f : Frame} {outer : List Frame} :
      s.get? i = some f → f.parent = some parent → Chain s parent outer → Chain s i (f :: outer)

theorem exists_chain {s : Store} (hs : s.Rooted) {i : Nat} (h : i < s.frames.length) :
    ∃ chain, s.Chain i chain := by
  induction i using Nat.strongRecOn with
  | ind i ih =>
      obtain ⟨f, hget⟩ := exists_get? h
      cases hparent : f.parent with
      | none => exact ⟨[f], .root hget hparent⟩
      | some parent =>
          have hlt : parent < i := hs i f parent hget hparent
          obtain ⟨outer, houter⟩ := ih parent hlt (Nat.lt_trans hlt h)
          exact ⟨f :: outer, .child hget hparent houter⟩

theorem Chain.get?_eq {s : Store} {i : Nat} {f : Frame} {outer : List Frame}
    (h : s.Chain i (f :: outer)) : s.get? i = some f := by
  cases h with
  | root hget _ => exact hget
  | child hget _ _ => exact hget

theorem Chain.exists_eq_cons {s : Store} {i : Nat} {f : Frame} {chain : List Frame}
    (h : s.Chain i chain) (hf : s.get? i = some f) : ∃ outer, chain = f :: outer := by
  cases h with
  | root hget _ => exact ⟨[], by rw [Option.some.inj (hget.symm.trans hf)]⟩
  | @child _ _ _ outer hget _ _ => exact ⟨outer, by rw [Option.some.inj (hget.symm.trans hf)]⟩

/-- The way out from a frame depends only on the frames up to it. -/
theorem Chain.congr {s s' : Store} (hs : s.Rooted) {i : Nat} {chain : List Frame}
    (h : s.Chain i chain) (hget : ∀ j ≤ i, s'.get? j = s.get? j) : s'.Chain i chain := by
  induction h with
  | @root i f hf hparent => exact .root ((hget i (Nat.le_refl i)).trans hf) hparent
  | @child i parent f outer hf hparent _ ih =>
      have hlt : parent < i := hs i f parent hf hparent
      refine .child ((hget i (Nat.le_refl i)).trans hf) hparent (ih ?_)
      exact fun j hj => hget j (Nat.le_trans hj (Nat.le_of_lt hlt))

theorem Chain.layers_eq_map {s : Store} (hs : s.Rooted) {i : Nat} {chain : List Frame}
    (h : s.Chain i chain) : layers s.frames i = chain.map Frame.bindings := by
  induction h with
  | root hget hparent => rw [layers_eq hs hget, hparent]; rfl
  | child hget hparent _ ih => rw [layers_eq hs hget, hparent, List.map_cons, ← ih]

theorem Chain.find?_eq {s : Store} (hs : s.Rooted) {i : Nat} {chain : List Frame}
    (h : s.Chain i chain) (name : String) :
    (s.scope i).find? name = chain.findSome? fun f => Entries.get? f.bindings name := by
  have hlayers : (s.scope i).layers = chain.map Frame.bindings := h.layers_eq_map hs
  rw [Scope.find?, hlayers, List.findSome?_map]
  rfl

/-- The first frame in the row that binds the name binds it to the value. -/
def Nearest (chain : List Frame) (name : String) (value : Value) : Prop :=
  ∃ inner f outer, chain = inner ++ f :: outer ∧ Entries.get? f.bindings name = some value ∧
    ∀ g ∈ inner, Entries.get? g.bindings name = none

theorem nearest_iff_findSome? (chain : List Frame) (name : String) (value : Value) :
    Nearest chain name value ↔
      (chain.findSome? fun f => Entries.get? f.bindings name) = some value :=
  List.findSome?_eq_some_iff.symm

section Lookup

variable (name : String)

theorem lookupWithin_eq_tooDeep_iff (room : Nat) (layers : List (Entries Value)) :
    lookupWithin name room layers = .error .tooDeep ↔
      room < layers.length ∧ ∀ layer ∈ layers.take room, Entries.get? layer name = none := by
  induction layers generalizing room with
  | nil => cases room <;> simp [lookupWithin, Failure.ofCause]
  | cons layer outer ih =>
      cases room with
      | zero => simp [lookupWithin]
      | succ room =>
          rw [lookupWithin, List.take_succ_cons, List.forall_mem_cons]
          cases hget : Entries.get? layer name with
          | some value => simp
          | none => simp [ih]

/-- Unless it goes too deep, the look-up finds what the layers bind the name to. -/
theorem lookupWithin_eq_of_ne_tooDeep {room : Nat} {layers : List (Entries Value)}
    (h : lookupWithin name room layers ≠ .error .tooDeep) :
    lookupWithin name room layers =
      (layers.findSome? fun layer => Entries.get? layer name).elim
        (.error (.ofCause (.undefinedName name))) .ok := by
  induction layers generalizing room with
  | nil => cases room <;> rfl
  | cons layer outer ih =>
      cases room with
      | zero => exact absurd rfl h
      | succ room =>
          rw [lookupWithin] at h ⊢
          rw [List.findSome?_cons]
          cases hget : Entries.get? layer name with
          | some value => rfl
          | none =>
              rw [hget] at h
              exact ih h

variable {s : Store} (hs : s.Rooted) {i : Nat} {chain : List Frame} (h : s.Chain i chain)
  (limits : Limits)
include hs h

theorem Chain.lookup_eq_tooDeep_iff :
    s.lookup i name limits = .error .tooDeep ↔
      limits.lookup < chain.length ∧
        ∀ f ∈ chain.take limits.lookup, Entries.get? f.bindings name = none := by
  have hlayers : (s.scope i).layers = chain.map Frame.bindings := h.layers_eq_map hs
  rw [lookup, lookupWithin_eq_tooDeep_iff, hlayers, List.length_map, ← List.map_take,
    List.forall_mem_map]

variable (hdeep : s.lookup i name limits ≠ .error .tooDeep)
include hdeep

theorem Chain.lookup_eq_elim :
    s.lookup i name limits =
      (chain.findSome? fun f => Entries.get? f.bindings name).elim
        (.error (.ofCause (.undefinedName name))) .ok := by
  rw [← h.find?_eq hs]
  exact lookupWithin_eq_of_ne_tooDeep name hdeep

theorem Chain.lookup_eq_ok_iff (value : Value) :
    s.lookup i name limits = .ok value ↔ Nearest chain name value := by
  rw [h.lookup_eq_elim name hs limits hdeep, nearest_iff_findSome?]
  cases chain.findSome? fun f => Entries.get? f.bindings name <;> simp

theorem Chain.lookup_eq_error_iff (failure : Failure) :
    s.lookup i name limits = .error failure ↔
      failure = .ofCause (.undefinedName name) ∧
        ∀ f ∈ chain, Entries.get? f.bindings name = none := by
  rw [h.lookup_eq_elim name hs limits hdeep, ← List.findSome?_eq_none_iff]
  cases chain.findSome? fun f => Entries.get? f.bindings name <;> simp [eq_comm]

end Lookup

/-- A frame with the source and the file name it takes over where it has none. -/
def inherited (s : Store) (f : Frame) : Frame :=
  { f with
    source := f.source.or ((f.parent.bind s.get?).bind Frame.source)
    filename := f.filename.or ((f.parent.bind s.get?).bind Frame.filename) }

theorem get?_push (s : Store) (f : Frame) (i : Nat) :
    (s.push f).get? i = if i = s.frames.length then some (s.inherited f) else s.get? i :=
  get?_cons (s.inherited f) s.frames i

theorem get?_push_of_lt {s : Store} (f : Frame) {i : Nat} (h : i < s.frames.length) :
    (s.push f).get? i = s.get? i := by
  rw [get?_push, if_neg (Nat.ne_of_lt h)]

theorem Rooted.push {s : Store} (hs : s.Rooted) {f : Frame}
    (hf : ∀ parent, f.parent = some parent → parent < s.frames.length) : (s.push f).Rooted := by
  intro i g parent hget hparent
  have hget' := (get?_push s f i).symm.trans hget
  split at hget'
  · rename_i hlast
    cases hget'
    exact hlast ▸ hf parent hparent
  · exact hs i g parent hget' hparent

/-- The store is what comes of building the frames. -/
structure Built (frames : List Frame) (s : Store) : Prop where
  length : s.frames.length = frames.length
  rooted : s.Rooted
  frame : ∀ j f, frames[j]? = some f → s.get? j = some (s.inherited f)

theorem inherited_push {s : Store} (f : Frame) {g : Frame}
    (h : ∀ parent, g.parent = some parent → parent < s.frames.length) :
    (s.push f).inherited g = s.inherited g := by
  have hparent : g.parent.bind (s.push f).get? = g.parent.bind s.get? := by
    cases hg : g.parent with
    | none => rfl
    | some parent => exact get?_push_of_lt f (h parent hg)
  unfold inherited
  rw [hparent]

theorem Built.push {frames : List Frame} {s : Store} (h : Built frames s) {f : Frame}
    (hf : ∀ parent, f.parent = some parent → parent < frames.length) :
    Built (frames ++ [f]) (s.push f) := by
  rw [← h.length] at hf
  refine ⟨?_, h.rooted.push hf, ?_⟩
  · rw [List.length_append, ← h.length]
    rfl
  · intro j g hg
    rw [List.getElem?_append] at hg
    split at hg
    · have hget := h.frame j g hg
      have hj := lt_of_get? hget
      rw [get?_push_of_lt f hj, hget, inherited_push f]
      intro parent hparent
      exact Nat.lt_trans (h.rooted j _ parent hget hparent) hj
    · rename_i hend
      have hlast : j - frames.length < 1 := (List.getElem?_eq_some_iff.mp hg).1
      obtain rfl : j = frames.length := by omega
      rw [Nat.sub_self] at hg
      cases hg
      rw [get?_push, if_pos h.length.symm, inherited_push f hf]

theorem Built.foldl_push {done : List Frame} (rest : List Frame) {s : Store} (h : Built done s)
    (horder : ParentsFirst (done ++ rest)) : Built (done ++ rest) (rest.foldl Store.push s) := by
  induction rest generalizing done s with
  | nil => rwa [List.append_nil]
  | cons f rest ih =>
      have hf : ∀ parent, f.parent = some parent → parent < done.length :=
        fun parent => horder done.length f parent (by simp)
      have hsplit : done ++ f :: rest = done ++ [f] ++ rest := by simp
      rw [hsplit] at horder ⊢
      exact ih (h.push hf) horder

theorem built_foldl_push {frames : List Frame} (horder : ParentsFirst frames) :
    Built frames (frames.foldl push {}) :=
  @Built.foldl_push [] frames {} ⟨rfl, nofun, nofun⟩ horder

/-- Whether a step gives the frame something: it runs a program there that has a tree. -/
def Step.storesIn (limits : Limits) (index : Nat) : Step → Bool
  | .lookup .. => false
  | .run target text _ filename _ => target == index && (parseProgram text filename limits).isOk

def Step.source : Step → Option String
  | .lookup .. => none
  | .run _ _ source _ _ => source

def Step.filename : Step → Option String
  | .lookup .. => none
  | .run _ _ _ filename _ => filename

def Step.bindings : Step → Entries Value
  | .lookup .. => []
  | .run _ _ _ _ bindings => bindings

/-- Do the steps one after another, whether they fail or not. -/
def performAll (s : Store) (limits : Limits) (steps : List Step) : Store :=
  steps.foldl (fun s step => (s.perform limits step).2) s

theorem get?_modify (s : Store) (index : Nat) (change : Frame → Frame) (j : Nat) :
    (s.modify index change).get? j = if index = j then (s.get? j).map change else s.get? j := by
  unfold get? modify
  rw [List.reverse_reverse, List.getElem?_modify]
  split <;> simp

theorem Rooted.modify {s : Store} (hs : s.Rooted) (index : Nat) {change : Frame → Frame}
    (hchange : ∀ f, (change f).parent = f.parent) : (s.modify index change).Rooted := by
  intro i f parent hget hparent
  have hget' := (get?_modify s index change i).symm.trans hget
  split at hget'
  · obtain ⟨g, hg, rfl⟩ := Option.map_eq_some_iff.mp hget'
    exact hs i g parent hg ((hchange g).symm.trans hparent)
  · exact hs i f parent hget' hparent

theorem length_modify (s : Store) (index : Nat) (change : Frame → Frame) :
    (s.modify index change).frames.length = s.frames.length := by
  simp [modify]

/-- What a step can do to the store: nothing, or give one frame what it carries. -/
theorem perform_cases (s : Store) (limits : Limits) (step : Step) :
    ((s.perform limits step).2 = s ∧ ∀ j, step.storesIn limits j = false) ∨
      ∃ index, (∀ j, step.storesIn limits j = (index == j)) ∧
        (s.perform limits step).2 =
          s.modify index (·.update step.source step.filename step.bindings) := by
  cases step with
  | lookup index name => exact Or.inl ⟨rfl, fun _ => rfl⟩
  | run index text source filename bindings =>
      simp only [perform, run, Step.storesIn]
      cases parseProgram text filename limits with
      | error failure => exact Or.inl ⟨rfl, fun _ => Bool.and_false _⟩
      | ok tree => exact Or.inr ⟨index, fun _ => Bool.and_true _, rfl⟩

theorem get?_perform (s : Store) (limits : Limits) (step : Step) (j : Nat) :
    (s.perform limits step).2.get? j =
      if step.storesIn limits j then
        (s.get? j).map (·.update step.source step.filename step.bindings)
      else s.get? j := by
  obtain ⟨hstore, hnone⟩ | ⟨index, hone, hstore⟩ := perform_cases s limits step
  · rw [hstore, hnone]
    rfl
  · rw [hstore, hone, get?_modify]
    simp only [beq_iff_eq]

theorem length_performAll (s : Store) (limits : Limits) (steps : List Step) :
    (s.performAll limits steps).frames.length = s.frames.length := by
  induction steps generalizing s with
  | nil => rfl
  | cons step steps ih =>
      refine (ih (s.perform limits step).2).trans ?_
      obtain ⟨hstore, -⟩ | ⟨index, -, hstore⟩ := perform_cases s limits step
      · rw [hstore]
      · rw [hstore, length_modify]

end Store

namespace Frame

open Store

/-- A frame after the steps that stored something in it. -/
def after (f : Frame) (stored : List Step) : Frame :=
  { f with
    bindings := Entries.merge f.bindings (stored.flatMap Step.bindings)
    source := (stored.reverse.findSome? Step.source).or f.source
    filename := (stored.reverse.findSome? Step.filename).or f.filename }

theorem after_nil (f : Frame) : f.after [] = f := rfl

theorem update_after (f : Frame) (step : Step) (stored : List Step) :
    (f.update step.source step.filename step.bindings).after stored = f.after (step :: stored) := by
  simp [after, update, Entries.merge, List.findSome?_append, List.foldl_append, Option.or_assoc]

end Frame

namespace Store

theorem get?_performAll (s : Store) (limits : Limits) (steps : List Step) (j : Nat) :
    (s.performAll limits steps).get? j =
      (s.get? j).map (·.after (steps.filter (·.storesIn limits j))) := by
  induction steps generalizing s with
  | nil => cases hget : s.get? j <;> simp [performAll, hget, Frame.after_nil]
  | cons step steps ih =>
      refine (ih (s.perform limits step).2).trans ?_
      rw [get?_perform, List.filter_cons]
      split
      · rw [Option.map_map]
        exact congrArg (Option.map · (s.get? j)) (funext fun f => f.update_after step _)
      · rfl

theorem Rooted.performAll {s : Store} (hs : s.Rooted) (limits : Limits) (steps : List Step) :
    (s.performAll limits steps).Rooted := by
  intro i f parent hget hparent
  obtain ⟨g, hg, rfl⟩ := Option.map_eq_some_iff.mp ((get?_performAll s limits steps i).symm.trans hget)
  exact hs i g parent hg hparent

/-- Frames keep what they are given. A frame has the parent and the name it was built with. Its
bindings are those it was built with, overwritten in order by those of the programs run in it that had
a tree, so that the last entry given for a name counts. Its source and file name are the last that
such a program came with, else its own, else those its parent had when it was built. What is not
stored in a frame leaves it as it is. A look-up goes too deep exactly if there are more frames on the
way out than it may ask and none of those it may ask binds the name. Otherwise the name has the value
that the nearest frame on the way out binds it to, and is undefined exactly if none there does. -/
theorem frames_keep_what_they_are_given {frames : List Frame} (horder : ParentsFirst frames)
    (limits : Limits) (steps : List Step) :
    let built : Store := frames.foldl push {}
    let s := built.performAll limits steps
    s.frames.length = frames.length ∧
    (∀ j f, frames[j]? = some f →
      let stored := steps.filter (·.storesIn limits j)
      let given := stored.flatMap Step.bindings
      s.get? j = some
          { parent := f.parent
            name := f.name
            bindings := Entries.merge f.bindings given
            source := (stored.reverse.findSome? Step.source).or
              (f.source.or ((f.parent.bind built.get?).bind Frame.source))
            filename := (stored.reverse.findSome? Step.filename).or
              (f.filename.or ((f.parent.bind built.get?).bind Frame.filename)) } ∧
        ∀ name, Entries.get? (Entries.merge f.bindings given) name =
          (Entries.get? given.reverse name).or (Entries.get? f.bindings name)) ∧
    (∀ step j, step.storesIn limits j = false → (s.perform limits step).2.get? j = s.get? j) ∧
    ∀ i < frames.length, ∃ chain, s.Chain i chain ∧ ∀ name,
      let answer := (s.perform limits (.lookup i name)).1
      (answer = .error .tooDeep ↔ limits.lookup < chain.length ∧
        ∀ f ∈ chain.take limits.lookup, Entries.get? f.bindings name = none) ∧
      (answer ≠ .error .tooDeep →
        (∀ value, answer = .ok value ↔ Nearest chain name value) ∧
        ∀ failure, answer = .error failure ↔
          failure = .ofCause (.undefinedName name) ∧
            ∀ f ∈ chain, Entries.get? f.bindings name = none) := by
  intro built s
  have hbuilt : Built frames built := built_foldl_push horder
  have hs : s.Rooted := hbuilt.rooted.performAll limits steps
  have hlength : s.frames.length = frames.length :=
    (length_performAll built limits steps).trans hbuilt.length
  refine ⟨hlength, ?_, ?_, ?_⟩
  · intro j f hf stored given
    refine ⟨?_, Entries.get?_merge f.bindings given⟩
    refine (get?_performAll built limits steps j).trans ?_
    rw [hbuilt.frame j f hf]
    rfl
  · intro step j hstep
    rw [get?_perform, hstep]
    rfl
  · intro i hi
    obtain ⟨chain, hchain⟩ := exists_chain hs (hlength.symm ▸ hi)
    refine ⟨chain, hchain, fun name => ⟨hchain.lookup_eq_tooDeep_iff name hs limits, ?_⟩⟩
    intro hdeep
    exact ⟨hchain.lookup_eq_ok_iff name hs limits hdeep,
      hchain.lookup_eq_error_iff name hs limits hdeep⟩

/-- A frame takes over its parent's source when it is built, and keeps it when the parent gets another;
a program without a tree gives its frame nothing. -/
theorem frames_keep_what_they_are_given_inner :
    let frames : List Frame :=
      [{ bindings := [("x", .boolean true)], source := some "old" },
        { parent := some 0, name := "inner", bindings := [("y", .void)] }]
    let steps : List Step :=
      [.run 0 "x" (some "new") none [], .run 1 "nowhere" none (some "a.gls") [("x", .void)],
        .run 1 "(" (some "broken") none [("x", .boolean false)], .lookup 1 "z"]
    ParentsFirst frames ∧
      ((frames.foldl push {} : Store).performAll {} steps).get? 1 = some
        { parent := some 0, name := "inner", bindings := [("y", .void), ("x", .void)],
          source := some "old", filename := some "a.gls" } := by
  intro frames steps
  have horder : ParentsFirst frames := by
    intro i f parent hf hparent
    match i with
    | 0 => cases hf; cases hparent
    | 1 => cases hf; cases hparent; exact Nat.zero_lt_one
  exact ⟨horder, ((frames_keep_what_they_are_given horder {} steps).2.1 1 _ rfl).1⟩

/-- A frame that binds a name, and `n` more, each built on the one before. -/
def ladder (n : Nat) : List Frame :=
  { bindings := [("x", .boolean true)] } :: (List.range n).map fun i => { parent := some i }

theorem ladder_succ (n : Nat) : ladder (n + 1) = ladder n ++ [{ parent := some n }] := by
  simp [ladder, List.range_succ]

theorem parentsFirst_ladder (n : Nat) : ParentsFirst (ladder n) := by
  intro i f parent hf hparent
  cases i with
  | zero =>
      cases hf
      cases hparent
  | succ i =>
      obtain ⟨j, hj, rfl⟩ : ∃ j, (List.range n)[i]? = some j ∧ { parent := some j } = f := by
        simpa [ladder] using hf
      cases hparent
      obtain ⟨_, hij⟩ := List.getElem?_eq_some_iff.mp hj
      rw [List.getElem_range] at hij
      exact hij ▸ Nat.lt_succ_self i

theorem layers_ladder (n : Nat) :
    layers ((ladder n).foldl push {} : Store).frames n =
      List.replicate n [] ++ [[("x", .boolean true)]] := by
  induction n with
  | zero => rfl
  | succ n ih =>
      have hlength : ((ladder n).foldl push {} : Store).frames.length = n + 1 := by
        rw [(built_foldl_push (parentsFirst_ladder n)).length]
        simp [ladder]
      rw [ladder_succ, List.foldl_append, List.replicate_succ, List.cons_append, ← ih]
      exact if_pos hlength.symm

/-- Seen from the last frame of a ladder the name is bound by the first one, which a look-up does not
reach if it may ask only the others. -/
theorem ladder_lookup_tooDeep {n : Nat} {limits : Limits} (hlimit : limits.lookup ≤ n) :
    let s : Store := (ladder n).foldl push {}
    ∃ chain, s.Chain n chain ∧ Nearest chain "x" (.boolean true) ∧
      (s.perform limits (.lookup n "x")).1 = .error .tooDeep := by
  intro s
  have hbuilt : Built (ladder n) s := built_foldl_push (parentsFirst_ladder n)
  have hlayers : (s.scope n).layers = List.replicate n [] ++ [[("x", .boolean true)]] :=
    layers_ladder n
  have hn : n < s.frames.length := by
    rw [hbuilt.length]
    simp [ladder]
  obtain ⟨chain, hchain⟩ := exists_chain hbuilt.rooted hn
  have hempty : ∀ layer ∈ List.replicate n ([] : Entries Value),
      Entries.get? layer "x" = none := by
    intro layer member
    rw [List.eq_of_mem_replicate member]
    rfl
  refine ⟨chain, hchain, ?_, ?_⟩
  · rw [nearest_iff_findSome?, ← hchain.find?_eq hbuilt.rooted, Scope.find?, hlayers,
      List.findSome?_append, List.findSome?_eq_none_iff.mpr hempty]
    rfl
  · rw [perform, lookup, lookupWithin_eq_tooDeep_iff, hlayers, List.length_append,
      List.length_replicate, List.take_append_of_le_length (by rwa [List.length_replicate])]
    exact ⟨Nat.lt_succ_of_le hlimit, fun layer member => hempty layer (List.mem_of_mem_take member)⟩

/-- From the last of 1500 frames, each built on the one before, the name that the first binds is not
found, although that frame is the nearest on the way out that binds it. -/
theorem lookup_from_afar_goes_too_deep :
    let s : Store := (ladder 1499).foldl push {}
    ∃ chain, s.Chain 1499 chain ∧ Nearest chain "x" (.boolean true) ∧
      (s.perform {} (.lookup 1499 "x")).1 = .error .tooDeep :=
  @ladder_lookup_tooDeep 1499 {} (by decide)

end Store

end Glass
