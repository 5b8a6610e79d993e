import CodeAtlas.Syntax.Parser

/-!
# Going on after a fault

When no branch can do anything with a token, the parser looks for the cheapest way to go on: by
supposing a token that is missing, by going back to an earlier state and leaving out what was read
since, or by skipping the token.
-/

namespace CodeAtlas.Syntax.Parser

/-- How many subtrees a branch can go back after a fault. -/
def maxTrail : Nat := 16

/-- The rules that could be finished in a state before any of some tokens, and whether one of the
tokens could be read. -/
def possible (l : Language) (state : Nat) (tokens : List Category) : List Reduction × Bool :=
  tokens.foldl (fun acc c => (l.actions state c).foldl (fun (acc : List Reduction × Bool) a =>
    match a with
    | .shift _ repetition => (acc.1, acc.2 || !repetition)
    | .recover => (acc.1, true)
    | .reduce n =>
      let r := l.reduction n
      if r.count == 0 || acc.1.any (fun q => q.rule == r.rule && q.count == r.count) then acc
      else (acc.1 ++ [r], acc.2)
    | .extra | .accept => acc) acc) ([], false)

/-- All tokens, the word first. -/
def allTokens (l : Language) : List Category := l.tokenOrder.map Category.token

/-- Finish rules in the branches from `w` on, in the round `i`, where `v` is the branch to start
with and new branches have numbers from `initial` on. A branch in which none of the tokens can be
read and no rule can be finished is removed if `removes` says so. Gives whether a token could be
read. -/
def finishFrom (l : Language) (tokens : List Category) (removes : Bool) (v initial : Nat) :
    Nat → Nat → Nat → Bool → Stack → Bool × Stack
  | 0, _, _, can, s => (can, s)
  | fuel + 1, i, w, can, s =>
    let count := s.branches.size
    if count ≤ w then (can, s)
    else
      match s.mergeTarget? ((List.range w).filter (initial ≤ ·)) w with
      | some j => finishFrom l tokens removes v initial fuel (i + 1) w can (s.merge j w)
      | none =>
        let (reductions, reads) := possible l (s.state w) tokens
        let (new, s) := reductions.foldl (fun (acc : Option Nat × Stack) r => reduce l w r acc.2)
          (none, s)
        let next := if w == v then count else w + 1
        if reads then finishFrom l tokens removes v initial fuel (i + 1) next true s
        else
          match if i < maxBranches then new else none with
          | some n => finishFrom l tokens removes v initial fuel (i + 1) w can (s.replace n w)
          | none =>
            finishFrom l tokens removes v initial fuel (i + 1) next can
              (if removes then s.remove w else s)

/-- Finish all rules that could be finished in a branch before a token, or before any token if none
is given. Gives whether the token could be read afterwards. -/
def finishRules (l : Language) (ahead : Option Category) (v : Nat) (s : Stack) : Bool × Stack :=
  let tokens := match ahead with
    | some c => [c]
    | none => allTokens l
  finishFrom l tokens ahead.isSome v s.branches.size (64 * (s.nodes.size + 64)) 0 v false s

/-- Suppose that one of some tokens is missing in a branch: the first after which the token that was
read leads on. -/
def supposeMissing (l : Language) (ahead : Category) (v : Nat) :
    List Category → Stack → Bool × Stack
  | [], s => (false, s)
  | c :: rest, s =>
    let state := s.state v
    let next := l.next state c
    let leadsOn := next != 0 && next != state &&
      (match l.actions next ahead with
        | .reduce _ :: _ => true
        | _ => false)
    if leadsOn then
      let b := s.branch v
      let (w, s) := s.addBranch { b with trail := none }
      let s := s.push w (some (.missing l c)) next
      let (can, s) := finishRules l (if ahead == .finish then none else some ahead) w s
      if can then (true, s) else supposeMissing l ahead v rest s
    else supposeMissing l ahead v rest s

/-- Go back to a state that a branch was in, so many subtrees ago, and leave out what was read
since. Gives whether there was such a state. -/
def goBack (l : Language) (v depth goal : Nat) (s : Stack) : Bool × Stack :=
  let progressAtFault := (s.branch v).progressAtFault
  (s.pop v depth).foldl (fun (acc : Bool × Stack) slice =>
    let (w, s) := acc.2.addBranch { node := slice.node, progressAtFault }
    if s.state w != goal then (acc.1, s.halt w)
    else
      -- Faulty text right before is taken in.
      let fault := (s.top w).links.find? fun k => k.subtree.any (·.category == .fault)
      let before := ((fault.bind (·.subtree)).map Subtree.children).getD []
      let s := match fault with
        | some k => s.onBranch w fun b => { b with node := k.node }
        | none => s
      let (skipped, extras) := Subtree.splitExtras (before ++ slice.first)
      let s := if skipped.isEmpty then s
        else s.push w (some ((Subtree.node l .fault skipped 0).withExtra true)) goal
      (true, extras.foldl (fun (s : Stack) e => s.push w (some e) goal) s)) (false, s)

/-- Try to go back to one of the states that a branch was in, where the token can be used and none
of the first `count` branches is already. -/
def tryTrail (l : Language) (v count : Nat) (token : Subtree) (cost : Nat) (progressed : Bool) :
    List Footprint → Parser → Bool × Parser
  | [], p => (false, p)
  | f :: rest, p =>
    let place := p.stack.place v
    if f.state == 0 || f.place.bytes == place.bytes then
      tryTrail l v count token cost progressed rest p
    else
      let depth := if progressed then f.depth + 1 else f.depth
      let isThere := (List.range count).any fun j =>
        p.stack.state j == f.state && (p.stack.place j).bytes == place.bytes
      if isThere then tryTrail l v count token cost progressed rest p
      else
        let newCost := cost + f.depth * Cost.node + (place.bytes - f.place.bytes) * Cost.byte
          + (place.rows - f.place.rows) * Cost.line
        let (beaten, p) := p.isBeaten v newCost
        if beaten then (false, p)
        else if (l.actions f.state token.category).isEmpty then
          tryTrail l v count token cost progressed rest p
        else
          let { stack, cache, finished, finishedCount } := p
          let (went, stack) := goBack l v depth f.state stack
          let p := { stack, cache, finished, finishedCount }
          if went then (true, p) else tryTrail l v count token cost progressed rest p

/-- Remove the branches from a number on that do not go on. -/
def dropInactive (first : Nat) (s : Stack) : Stack :=
  let { nodes, branches } := s
  { nodes
    branches := branches.extract 0 first
      ++ (branches.extract first branches.size).filter (·.status.isActive) }

/-- Skip a token in a branch that is in faulty text. Faults in a row become one. -/
def skipToken (l : Language) (v : Nat) (token : Subtree) (progressed : Bool) (s : Stack) : Stack :=
  let isComment := match (l.actions 1 token.category).getLast? with
    | some .extra => true
    | _ => false
  let token := if isComment then token.withExtra true else token
  let fault := Subtree.node l .faults [token] 0
  if progressed then
    match s.pop v 1 with
    | [] => s.push v (some fault) 0
    | slice :: _ =>
      let progressAtFault := (s.branch v).progressAtFault
      let trail := (s.branch v).trail
      let s := s.onBranch v fun _ => { node := slice.node, progressAtFault, trail }
      s.push v (some (.node l .faults (slice.first ++ [fault]) 0)) 0
  else s.push v (some fault) 0

/-- Go on after a fault in a branch: go back to an earlier state, or skip the token. At the end of
the text everything that was read is faulty. -/
def recover (l : Language) (v : Nat) (token : Subtree) (p : Parser) : Parser :=
  let count := p.stack.branches.size
  let p := p.onStack (·.noteProgress v)
  let progressed := 0 < p.stack.progressSince v
  let cost := p.stack.cost v
  let trail := if token.category == .fault then [] else ((p.stack.branch v).trail).getD []
  let (went, p) := tryTrail l v count token cost progressed trail p
  let p := p.onStack (dropInactive count)
  if went && maxBranches < p.stack.branches.size then p.onStack (·.halt v)
  else if token.category == .finish then
    let p := p.onStack (·.push v (some (.node l .fault [] 0)) 1)
    p.accept l v token
  else
    let total := token.total
    let newCost := cost + Cost.node + total.bytes * Cost.byte + total.rows * Cost.line
    let (beaten, p) := p.isBeaten v newCost
    if beaten then p.onStack (·.halt v)
    else p.onStack (skipToken l v token progressed)

/-- Bring branches to the state of faulty text, and for the first that it helps suppose a missing
token. -/
def enterFaultyText (l : Language) (ahead : Category) : List Nat → Bool → Stack → Stack
  | [], _, s => s
  | x :: rest, supposed, s =>
    let (supposed, s) :=
      if supposed then (true, s) else supposeMissing l ahead x (allTokens l) s
    enterFaultyText l ahead rest supposed (s.push x none 0)

/-- Handle a token with which a branch can do nothing. -/
def handleFault (l : Language) (v : Nat) (token : Subtree) (p : Parser) : Parser :=
  let { stack, cache, finished, finishedCount } := p
  let before := stack.branches.size
  let (_, s) := finishRules l none v stack
  let count := s.branches.size
  let new := (List.range count).filter (before ≤ ·)
  let s := enterFaultyText l token.part.leaf (v :: new) false s
  let s := new.foldl (fun (s : Stack) _ => s.merge v before) s
  let s := s.noteTrail v maxTrail
  recover l v token { stack := s, cache, finished, finishedCount }

/-! ## The whole text -/

/-- What became of the reductions of a token. -/
inductive Progress where
  /-- The token was read, or the branch ended. -/
  | done
  /-- Rules were finished, and the first new branch goes on. -/
  | reduced (branch : Nat)
  /-- Nothing could be done. -/
  | stuck
  deriving DecidableEq, Repr, Inhabited

/-- Do what the table says about a token. -/
def act (l : Language) (v state : Nat) (token : Subtree) :
    List Action → Progress → Parser → Progress × Parser
  | [], progress, p => (progress, p)
  | a :: rest, progress, p =>
    match a with
    | .shift _ true => act l v state token rest progress p
    | .shift next false => (.done, p.onStack (·.push v (some (token.withExtra false)) next))
    | .extra => (.done, p.onStack (·.push v (some (token.withExtra true)) state))
    | .reduce n =>
      let { stack, cache, finished, finishedCount } := p
      let (new, stack) := reduce l v (l.reduction n) stack
      let p := { stack, cache, finished, finishedCount }
      match new with
      | some w => act l v state token rest (.reduced w) p
      | none => act l v state token rest progress p
    | .accept => (.done, p.accept l v token)
    | .recover => (.done, p.recover l v token)

/-- Take a token in a branch: finish rules until it is read. A keyword with which nothing can be
done is taken as a plain word. -/
def takeToken (l : Language) (v : Nat) : Nat → List Action → Subtree → Parser → Parser
  | 0, _, _, p => p.onStack (·.halt v)
  | fuel + 1, actions, token, p =>
    let state := p.stack.state v
    match act l v state token actions .stuck p with
    | (.done, p) => p
    | (.reduced w, p) =>
      let p := p.onStack (·.replace w v)
      takeToken l v fuel (l.actions (p.stack.state v) token.part.leaf) token p
    | (.stuck, p) =>
      let asWord := l.actions state (.token l.word)
      if token.part.keyword && token.category != .token l.word && !asWord.isEmpty then
        takeToken l v fuel asWord (token.asWord l) p
      else if state == 0 then p.recover l v token
      else p.onStack fun s =>
        let progress := (s.top v).progress
        s.onBranch v fun b => { b with status := .paused token, progressAtFault := progress }

/-- Take the next token in a branch. -/
def advance (l : Language) (t : Sheet) (v : Nat) (p : Parser) : Parser :=
  let (token, p) := p.nextToken l t v
  let actions := l.actions (p.stack.state v) token.category
  takeToken l v (64 * (p.stack.nodes.size + 64)) actions token p

/-- Compare a branch with those before it: worse ones are removed, and branches that meet are
joined. `own` is how the branch stands, `i` is its number, and `j` is the one it is compared with.
Gives the number of the next branch. -/
def condenseBranch (own : Standing) : Nat → Nat → Nat → Stack → Nat × Stack
  | 0, i, _, s => (i, s)
  | fuel + 1, i, j, s =>
    if i ≤ j then (i + 1, s)
    else
      let s := s.noteProgress j
      let verdict := (standing s j).compare own
      match verdict with
      | .takeFirst => (i, s.remove i)
      | .takeSecond => condenseBranch own fuel (i - 1) j (s.remove j)
      | .preferFirst | .neither =>
        if s.canMerge j i then (i, s.merge j i) else condenseBranch own fuel i (j + 1) s
      | .preferSecond =>
        if s.canMerge j i then (i, s.merge j i)
        else
          let { nodes, branches } := s
          condenseBranch own fuel i (j + 1) { nodes, branches := branches.swapIfInBounds i j }

/-- Condense all branches from a number on. Gives the least cost of a branch that is not in faulty
text. -/
def condenseFrom : Nat → Nat → Option Nat → Stack → Option Nat × Stack
  | 0, _, least, s => (least, s)
  | fuel + 1, i, least, s =>
    if s.branches.size ≤ i then (least, s)
    else if (s.branch i).status.isHalted then condenseFrom fuel i least (s.remove i)
    else
      let s := s.noteProgress i
      let own := standing s i
      let least := if own.faulty then least else some (min own.cost (least.getD own.cost))
      let (next, s) := condenseBranch own (2 * s.branches.size + 1) i 0 s
      condenseFrom fuel next least s

/-- Let the first branch that waits go on if no branch before it does, and remove the others that
wait. -/
def resume (l : Language) : Nat → Nat → Bool → Option Nat → Parser → Option Nat × Parser
  | 0, _, _, least, p => (least, p)
  | fuel + 1, i, goesOn, least, p =>
    match (p.stack.branch i).status with
    | .paused token =>
      if !goesOn && p.finishedCount < maxBranches then
        let cost := p.stack.cost i
        let p := p.onStack (·.onBranch i fun b => { b with status := .active })
        resume l fuel (i + 1) true (some cost) (p.handleFault l i token)
      else resume l fuel i goesOn least (p.onStack (·.remove i))
    | _ => resume l fuel (i + 1) true least p

/-- Remove bad branches and join those that meet. Gives the least cost of a branch. -/
def condense (l : Language) (p : Parser) : Option Nat × Parser :=
  let { stack, cache, finished, finishedCount } := p
  let (least, s) := condenseFrom (4 * stack.branches.size + 1) 0 none stack
  let { nodes, branches } := s
  let s : Stack := { nodes, branches := branches.extract 0 maxBranches }
  let count := s.branches.size
  resume l count 0 false least { stack := s, cache, finished, finishedCount }

/-- Let a branch take tokens until it is ahead of the last place. -/
def advanceBranch (l : Language) (t : Sheet) (v : Nat) : Nat → Nat → Parser → Nat × Parser
  | 0, last, p => (last, p)
  | fuel + 1, last, p =>
    if p.stack.isActive v then
      let p := p.advance l t v
      let bytes := (p.stack.place v).bytes
      if last < bytes || (0 < v && bytes == last) then (bytes, p)
      else advanceBranch l t v fuel last p
    else (last, p)

/-- Let all branches from a number on take tokens. -/
def advanceAll (l : Language) (t : Sheet) (limit : Nat) : Nat → Nat → Nat → Parser → Nat × Parser
  | 0, _, last, p => (last, p)
  | fuel + 1, v, last, p =>
    if v < p.stack.branches.size then
      let (last, p) := advanceBranch l t v limit last p
      advanceAll l t limit fuel (v + 1) last p
    else (last, p)

/-- Parse until the best tree is found. -/
def run (l : Language) (t : Sheet) (limit : Nat) : Nat → Nat → Parser → Option Subtree
  | 0, _, p => p.finished
  | fuel + 1, last, p =>
    let (last, p) := advanceAll l t limit limit 0 last p
    let (least, p) := p.condense l
    let isBest := match p.finished, least with
      | some f, some cost => f.cost < cost
      | some _, none => true
      | none, _ => false
    if isBest || p.stack.branches.isEmpty then p.finished
    else run l t limit fuel last p

end CodeAtlas.Syntax.Parser
