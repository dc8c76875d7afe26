import DeriveKit.Log

/-!
# Handlers over whole runs

The list of handlers is edited by two parties: the host attaches and detaches handlers of its own, and
`configure` replaces ours. Ours are found by name, in whatever list, by a loop that detaches one handler at a
time (`detachOwn_eq`). So the host's handlers are what the host alone would have made of them (`hosts_run`),
and after each call of `configure` they are followed by one handler of ours (`one_handler_of_our_own`).
-/
namespace DeriveKit.Log

/-- A handler that does not go by our name. -/
abbrev HostHandler := { h : Handler // h.name ≠ ownName }

/-- A call that changes the helpers' logger: our own, or one of the host. -/
inductive Call where
  | configure (verbose json : Bool)
  | attach (h : HostHandler)
  | detach (h : HostHandler)

/-- The loggers after a call. -/
def State.after (s : State) : Call → State
  | .configure verbose json => s.configure verbose json
  | .attach h => { s with logger := s.logger.attach h.val }
  | .detach h => { s with logger := s.logger.detach h.val }

/-- The loggers after a list of calls. -/
def run (s : State) (calls : List Call) : State := calls.foldl State.after s

/-- The handlers of a logger that do not go by our name, in order. -/
def Logger.hosts (l : Logger) : List Handler := l.handlers.filter fun h => h.name ≠ ownName

/-- What a call makes of the host's handlers. Ours makes nothing of them. -/
def hostAfter (hs : List Handler) : Call → List Handler
  | .configure _ _ => hs
  | .attach h => if h.val ∈ hs then hs else hs ++ [h.val]
  | .detach h => hs.erase h.val

/-! ## Handlers of one logger -/

namespace Logger

variable {l : Logger} {h : Handler}

theorem isOwn_iff : h.isOwn = true ↔ h.name = ownName := by
  simp [Handler.isOwn]

theorem mem_hosts : h ∈ l.hosts ↔ h ∈ l.handlers ∧ h.name ≠ ownName := by
  simp [hosts]

theorem hosts_attach (l : Logger) (h : HostHandler) :
    (l.attach h.val).hosts = if h.val ∈ l.hosts then l.hosts else l.hosts ++ [h.val] := by
  unfold attach
  by_cases hmem : h.val ∈ l.handlers
  · rw [if_pos hmem, if_pos (mem_hosts.2 ⟨hmem, h.property⟩)]
  · rw [if_neg hmem, if_neg fun hhost => hmem (mem_hosts.1 hhost).1]
    simp [hosts, h.property]

theorem hosts_detach (l : Logger) (h : HostHandler) : (l.detach h.val).hosts = l.hosts.erase h.val := by
  unfold detach hosts
  exact List.erase_filter.symm

/-- The loop has passed `kept`, where no handler of ours is left, and still has to pass `rest`. -/
theorem foldl_detach (kept rest : List Handler) (hkept : ∀ h ∈ kept, h.name ≠ ownName) (l : Logger)
    (hl : l.handlers = kept ++ rest) :
    rest.foldl (fun l h => if h.isOwn then l.detach h else l) l =
      { l with handlers := kept ++ rest.filter fun h => h.name ≠ ownName } := by
  induction rest generalizing kept l with
  | nil =>
    cases l
    simp_all
  | cons h rest ih =>
    rw [List.foldl_cons]
    by_cases hown : h.name = ownName
    · -- The handler stands right behind `kept`, and none before it is the same.
      have hnot : h ∉ kept := fun hmem => hkept h hmem hown
      have herase : (l.detach h).handlers = kept ++ rest := by
        simp [detach, hl, List.erase_append_right _ hnot]
      rw [if_pos (isOwn_iff.2 hown), ih kept hkept _ herase]
      simp [detach, hown]
    · have hkept' : ∀ k ∈ kept ++ [h], k.name ≠ ownName := by
        intro k hk
        rcases List.mem_append.1 hk with hk | hk
        · exact hkept k hk
        · rw [List.mem_singleton.1 hk]
          exact hown
      rw [if_neg (mt isOwn_iff.1 hown), ih (kept ++ [h]) hkept' l (by simp [hl])]
      simp [hown]

theorem detachOwn_eq (l : Logger) : l.detachOwn = { l with handlers := l.hosts } :=
  foldl_detach [] l.handlers (by simp) l rfl

end Logger

/-! ## One call -/

namespace State

/-- None of ours is left when the new one is attached. -/
theorem handlers_configure (s : State) (verbose json : Bool) :
    (s.configure verbose json).logger.handlers =
      s.logger.hosts ++ [.own (if json then .json else .console)] := by
  have hnot : ∀ style, Handler.own style ∉ s.logger.hosts := fun style h => (Logger.mem_hosts.1 h).2 rfl
  unfold configure Logger.attach
  rw [Logger.detachOwn_eq]
  dsimp only
  rw [if_neg (hnot _)]

theorem hosts_after (s : State) (c : Call) : (s.after c).logger.hosts = hostAfter s.logger.hosts c := by
  cases c with
  | attach h => exact Logger.hosts_attach s.logger h
  | detach h => exact Logger.hosts_detach s.logger h
  | configure verbose json =>
    have hours : ∀ style, [Handler.own style].filter (fun h => h.name ≠ ownName) = [] := fun style => rfl
    unfold after hostAfter Logger.hosts
    dsimp only
    rw [handlers_configure, List.filter_append, hours, List.append_nil]
    unfold Logger.hosts
    rw [List.filter_filter]
    simp

theorem root_after (s : State) (c : Call) : (s.after c).root = s.root := by
  cases c <;> rfl

end State

/-! ## Runs -/

theorem run_snoc (s : State) (calls : List Call) (c : Call) : run s (calls ++ [c]) = (run s calls).after c := by
  simp [run]

theorem root_run (s : State) (calls : List Call) : (run s calls).root = s.root := by
  induction calls generalizing s with
  | nil => rfl
  | cons c calls ih => exact (ih (s.after c)).trans (s.root_after c)

/-- The host's handlers do not depend on our calls. -/
theorem hosts_run (s : State) (calls : List Call) :
    (run s calls).logger.hosts = calls.foldl hostAfter s.logger.hosts := by
  induction calls generalizing s with
  | nil => rfl
  | cons c calls ih =>
    rw [List.foldl_cons, ← State.hosts_after]
    exact ih (s.after c)

/-- Whatever handlers a logger starts with, and however the host attaches and detaches its own between our
calls: after each of our calls the host's handlers stand as the host alone would have left them, followed by
one handler of ours in the style of that call, and the level is that call's. The root logger never changes. -/
theorem one_handler_of_our_own (s : State) (calls : List Call) :
    (run s calls).root = s.root ∧
    ∀ verbose json,
      let hosts := calls.foldl hostAfter (s.logger.handlers.filter fun h => h.name ≠ ownName)
      let t := run s (calls ++ [.configure verbose json])
      t.logger.handlers = hosts ++ [.own (if json then .json else .console)] ∧
      (∀ h ∈ hosts, h.name ≠ ownName) ∧
      hosts = (run s calls).logger.handlers.filter (fun h => h.name ≠ ownName) ∧
      t.logger.level = some (if verbose then .debug else .warning) ∧
      t.logger.propagate = false ∧ t.root = s.root := by
  refine ⟨root_run s calls, fun verbose json => ?_⟩
  intro hosts t
  have hhosts : (run s calls).logger.hosts = hosts := hosts_run s calls
  have ht : t = (run s calls).configure verbose json := run_snoc s calls _
  refine ⟨?_, ?_, hhosts.symm, ?_, ?_, ?_⟩
  · rw [ht, State.handlers_configure, hhosts]
  · intro h hh
    rw [← hhosts] at hh
    exact (Logger.mem_hosts.1 hh).2
  · rw [ht]
    rfl
  · rw [ht]
    rfl
  · exact root_run s _

/-- A handler that is not ours but goes by our name is taken for ours. -/
example :
    let s : State := ⟨⟨none, true, [.own .json, .host 0 ownName, .host 1 "file"]⟩, State.initial.root⟩
    let calls := [.attach ⟨.host 2 "", by decide⟩, .configure true false, .detach ⟨.host 1 "file", by decide⟩]
    (run s calls).logger.handlers = [.host 2 "", .own .console] := by
  decide +kernel

end DeriveKit.Log
