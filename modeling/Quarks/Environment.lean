import Quarks.Cloud.Roles
import Quarks.Core.Joined

/-!
# The command line

`Core::setEnvironment` goes through the arguments once. An option raises a flag, and the argument
after it is taken as its value; that argument is then looked at as an option itself. What the
environment holds in the end depends only on the pairs of neighbouring arguments: of the values of
an option the last one counts.
-/

namespace Quarks

/-! ## The code -/

/-- What `Core::setEnvironment` sets. -/
structure Environment where
  dbPath : Bytes
  portNumber : ℤ
  hooksocket : Bool
  broker : Bool
  brokerBindUrl : Bytes
  sinkUrl : Bytes
  reader : Bool
  writer : Bool
  brokerUrl : Bytes
  producerUrl : Bytes
  consumerUrl : Bytes
  tcpServer : Bool
  tcpClient : Bool
  tcpUrl : Bytes
  hasLogger : Bool
  loggerUrl : Bytes
  timeout : ℤ
  cacheEnabled : Bool
  deriving DecidableEq

/-- The flags that wait for the value of an option. -/
structure PendingFlags where
  schema : Bool
  port : Bool
  interceptsocket : Bool
  brokerFlag : Bool
  sinkFlag : Bool
  readerFlag : Bool
  writerFlag : Bool
  producerFlag : Bool
  consumerFlag : Bool
  tcpServerFlag : Bool
  tcpClientFlag : Bool
  loggerFlag : Bool
  timeoutFlag : Bool

/-- The environment before the arguments are looked at. -/
def Environment.start : Environment where
  dbPath := ascii "quarks_db"
  portNumber := 18080
  hooksocket := true
  broker := false
  brokerBindUrl := []
  sinkUrl := []
  reader := false
  writer := false
  brokerUrl := []
  producerUrl := []
  consumerUrl := []
  tcpServer := false
  tcpClient := false
  tcpUrl := []
  hasLogger := false
  loggerUrl := []
  timeout := 0
  cacheEnabled := false

def PendingFlags.start : PendingFlags :=
  ⟨false, false, false, false, false, false, false, false, false, false, false, false, false⟩

/-- The first half of the loop: an argument is the value of an option that waits for one. -/
def takeValue (v : Bytes) (p : PendingFlags) (env : Environment) :
    Except Failure (PendingFlags × Environment) :=
  if p.schema then .ok ({ p with schema := false }, { env with dbPath := v })
  else if p.port then
    (stoi v).map fun n => ({ p with port := false }, { env with portNumber := n })
  else if p.interceptsocket then
    .ok ({ p with interceptsocket := false }, { env with hooksocket := false })
  else if p.brokerFlag then
    .ok ({ p with brokerFlag := false }, { env with broker := true, brokerBindUrl := v })
  else if p.sinkFlag then .ok ({ p with sinkFlag := false }, { env with sinkUrl := v })
  else if p.readerFlag then
    .ok ({ p with readerFlag := false }, { env with reader := true, brokerUrl := v })
  else if p.writerFlag then
    .ok ({ p with writerFlag := false }, { env with writer := true, brokerUrl := v })
  else if p.producerFlag then .ok ({ p with producerFlag := false }, { env with producerUrl := v })
  else if p.consumerFlag then .ok ({ p with consumerFlag := false }, { env with consumerUrl := v })
  else if p.tcpServerFlag then
    .ok ({ p with tcpServerFlag := false }, { env with tcpUrl := v, tcpServer := true })
  else if p.tcpClientFlag then
    .ok ({ p with tcpClientFlag := false }, { env with tcpUrl := v, tcpClient := true })
  else if p.loggerFlag then
    .ok ({ p with loggerFlag := false }, { env with loggerUrl := v, hasLogger := true })
  else if p.timeoutFlag then
    (stoi v).map fun n => ({ p with timeoutFlag := false }, { env with timeout := n })
  else .ok (p, env)

/-- The second half of the loop: an argument is an option. -/
def raiseFlag (v : Bytes) (p : PendingFlags) (env : Environment) : PendingFlags × Environment :=
  if v = ascii "-db" ∨ v = ascii "-store" then ({ p with schema := true }, env)
  else if v = ascii "-port" then ({ p with port := true }, env)
  else if v = ascii "-nohooksocket" then ({ p with interceptsocket := true }, env)
  else if v = ascii "-broker" then ({ p with brokerFlag := true }, env)
  else if v = ascii "-sink" then ({ p with sinkFlag := true }, env)
  else if v = ascii "-reader" then ({ p with readerFlag := true }, env)
  else if v = ascii "-writer" then ({ p with writerFlag := true }, env)
  else if v = ascii "-producer" ∨ v = ascii "-publisher" then ({ p with producerFlag := true }, env)
  else if v = ascii "-consumer" ∨ v = ascii "-subscriber" then
    ({ p with consumerFlag := true }, env)
  else if v = ascii "-tcpserver" then ({ p with tcpServerFlag := true }, env)
  else if v = ascii "-tcpclient" then ({ p with tcpClientFlag := true }, env)
  else if v = ascii "-log" then ({ p with loggerFlag := true }, env)
  else if v = ascii "-timeout" then ({ p with timeoutFlag := true }, env)
  else if v = ascii "-cached" then (p, { env with cacheEnabled := true })
  else (p, env)

/-- The loop over the arguments. Nothing catches what `std::stoi` throws. -/
def argumentsLoop :
    List Bytes → PendingFlags → Environment → Except Failure (PendingFlags × Environment)
  | [], p, env => .ok (p, env)
  | v :: args, p, env => do
    let (p, env) ← takeValue v p env
    let (p, env) := raiseFlag v p env
    argumentsLoop args p env

/-- `Core::setEnvironment`, without the opening of the database. -/
def setEnvironment (args : List Bytes) : Except Failure Environment := do
  return (← argumentsLoop args .start .start).2

/-! ## Neighbouring arguments -/

/-- The options. The one for the cache waits for no value. -/
inductive CommandOption
  | store
  | port
  | nohooksocket
  | broker
  | sink
  | reader
  | writer
  | producer
  | consumer
  | tcpserver
  | tcpclient
  | log
  | timeout
  | cached
  deriving DecidableEq

/-- The option that an argument names. -/
def optionOf (v : Bytes) : Option CommandOption :=
  if v = ascii "-db" ∨ v = ascii "-store" then some .store
  else if v = ascii "-port" then some .port
  else if v = ascii "-nohooksocket" then some .nohooksocket
  else if v = ascii "-broker" then some .broker
  else if v = ascii "-sink" then some .sink
  else if v = ascii "-reader" then some .reader
  else if v = ascii "-writer" then some .writer
  else if v = ascii "-producer" ∨ v = ascii "-publisher" then some .producer
  else if v = ascii "-consumer" ∨ v = ascii "-subscriber" then some .consumer
  else if v = ascii "-tcpserver" then some .tcpserver
  else if v = ascii "-tcpclient" then some .tcpclient
  else if v = ascii "-log" then some .log
  else if v = ascii "-timeout" then some .timeout
  else if v = ascii "-cached" then some .cached
  else none

/-- The values of some options: the arguments right behind an argument that names one of them. -/
def valuesOf (options : List CommandOption) (args : List Bytes) : List Bytes :=
  (args.zip args.tail).filterMap fun (name, v) =>
    if ∃ o ∈ options, optionOf name = some o then some v else none

/-- The last one of the values. -/
def lastOf (options : List CommandOption) (args : List Bytes) : Option Bytes :=
  (valuesOf options args).getLast?

/-- The last one of the values as a number. -/
def lastNumber (option : CommandOption) (args : List Bytes) (default : ℤ) : ℤ :=
  ((lastOf [option] args).bind fun v => (stoi v).toOption).getD default

/-- The environment that the neighbouring arguments give. -/
def environmentOf (args : List Bytes) : Environment where
  dbPath := (lastOf [.store] args).getD (ascii "quarks_db")
  portNumber := lastNumber .port args 18080
  hooksocket := (lastOf [.nohooksocket] args).isNone
  broker := (lastOf [.broker] args).isSome
  brokerBindUrl := (lastOf [.broker] args).getD []
  sinkUrl := (lastOf [.sink] args).getD []
  reader := (lastOf [.reader] args).isSome
  writer := (lastOf [.writer] args).isSome
  brokerUrl := (lastOf [.reader, .writer] args).getD []
  producerUrl := (lastOf [.producer] args).getD []
  consumerUrl := (lastOf [.consumer] args).getD []
  tcpServer := (lastOf [.tcpserver] args).isSome
  tcpClient := (lastOf [.tcpclient] args).isSome
  tcpUrl := (lastOf [.tcpserver, .tcpclient] args).getD []
  hasLogger := (lastOf [.log] args).isSome
  loggerUrl := (lastOf [.log] args).getD []
  timeout := lastNumber .timeout args 0
  cacheEnabled := args.any fun v => optionOf v = some .cached

/-! ## The loop -/

/-- The option that the last argument names. -/
def lastOption (args : List Bytes) : Option CommandOption := args.getLast?.bind optionOf

/-- The flag that an option raises. -/
def flagsOf : Option CommandOption → PendingFlags
  | none | some .cached => .start
  | some .store => { PendingFlags.start with schema := true }
  | some .port => { PendingFlags.start with port := true }
  | some .nohooksocket => { PendingFlags.start with interceptsocket := true }
  | some .broker => { PendingFlags.start with brokerFlag := true }
  | some .sink => { PendingFlags.start with sinkFlag := true }
  | some .reader => { PendingFlags.start with readerFlag := true }
  | some .writer => { PendingFlags.start with writerFlag := true }
  | some .producer => { PendingFlags.start with producerFlag := true }
  | some .consumer => { PendingFlags.start with consumerFlag := true }
  | some .tcpserver => { PendingFlags.start with tcpServerFlag := true }
  | some .tcpclient => { PendingFlags.start with tcpClientFlag := true }
  | some .log => { PendingFlags.start with loggerFlag := true }
  | some .timeout => { PendingFlags.start with timeoutFlag := true }

section

variable {options : List CommandOption} {args rest : List Bytes} {v : Bytes}

theorem zip_tail_concat (args : List Bytes) (v : Bytes) :
    (args ++ [v]).zip (args ++ [v]).tail =
      args.zip args.tail ++ (args.getLast?.map fun name => (name, v)).toList := by
  induction args with
  | nil => rfl
  | cons a args ih =>
    cases args with
    | nil => rfl
    | cons b args =>
      simp only [List.cons_append, List.tail_cons, List.zip_cons_cons] at ih ⊢
      rw [ih, List.getLast?_cons_cons]

/-- One more argument is a value if the one before it names an option. -/
theorem valuesOf_concat (options : List CommandOption) (args : List Bytes) (v : Bytes) :
    valuesOf options (args ++ [v]) = valuesOf options args ++
      if ∃ o ∈ options, lastOption args = some o then [v] else [] := by
  rw [valuesOf, zip_tail_concat, List.filterMap_append, ← valuesOf]
  congr 1
  cases hlast : args.getLast? with
  | none => simp [lastOption, hlast]
  | some name =>
    simp only [lastOption, hlast, Option.map_some, Option.toList_some, Option.bind_some,
      List.filterMap_cons, List.filterMap_nil]
    by_cases h : ∃ o ∈ options, optionOf name = some o
    · simp only [if_pos h]
    · simp only [if_neg h]

theorem lastOf_concat (options : List CommandOption) (args : List Bytes) (v : Bytes) :
    lastOf options (args ++ [v]) =
      if ∃ o ∈ options, lastOption args = some o then some v else lastOf options args := by
  rw [lastOf, valuesOf_concat]
  split
  · exact List.getLast?_concat
  · rw [List.append_nil, lastOf]

theorem lastOption_concat (args : List Bytes) (v : Bytes) :
    lastOption (args ++ [v]) = optionOf v := by
  rw [lastOption, List.getLast?_concat, Option.bind_some]

/-- The values that have to be numbers are. -/
def NumbersFit (args : List Bytes) : Prop :=
  ∀ v ∈ valuesOf [.port, .timeout] args, (stoi v).isOk = true

theorem numbersFit_concat (args : List Bytes) (v : Bytes) :
    NumbersFit (args ++ [v]) ↔ NumbersFit args ∧
      ((∃ o ∈ [CommandOption.port, .timeout], lastOption args = some o) →
        (stoi v).isOk = true) := by
  rw [NumbersFit, valuesOf_concat, List.forall_mem_append, ← NumbersFit]
  refine and_congr_right fun _ => ?_
  split
  · next h => simp only [List.forall_mem_singleton, h, true_imp_iff]
  · next h => simp only [List.not_mem_nil, false_imp_iff, implies_true, h]

theorem NumbersFit.of_append (h : NumbersFit (args ++ rest)) : NumbersFit args := by
  induction rest using List.reverseRecOn with
  | nil => rwa [List.append_nil] at h
  | append_singleton rest v ih =>
    rw [← List.append_assoc, numbersFit_concat] at h
    exact ih h.1

/-- What an option does with its value. -/
def CommandOption.set (v : Bytes) (env : Environment) :
    Option CommandOption → Except Failure Environment
  | none | some .cached => .ok env
  | some .store => .ok { env with dbPath := v }
  | some .port => (stoi v).map fun n => { env with portNumber := n }
  | some .nohooksocket => .ok { env with hooksocket := false }
  | some .broker => .ok { env with broker := true, brokerBindUrl := v }
  | some .sink => .ok { env with sinkUrl := v }
  | some .reader => .ok { env with reader := true, brokerUrl := v }
  | some .writer => .ok { env with writer := true, brokerUrl := v }
  | some .producer => .ok { env with producerUrl := v }
  | some .consumer => .ok { env with consumerUrl := v }
  | some .tcpserver => .ok { env with tcpUrl := v, tcpServer := true }
  | some .tcpclient => .ok { env with tcpUrl := v, tcpClient := true }
  | some .log => .ok { env with loggerUrl := v, hasLogger := true }
  | some .timeout => (stoi v).map fun n => { env with timeout := n }

/-- At most one option waits, and it lowers its flag again. -/
theorem takeValue_flagsOf (option : Option CommandOption) (v : Bytes) (env : Environment) :
    takeValue v (flagsOf option) env =
      (CommandOption.set v env option).map fun env => (.start, env) := by
  rcases option with - | option
  · rfl
  · cases option with
    | port | timeout =>
      cases hv : stoi v <;> simp [takeValue, flagsOf, CommandOption.set, hv] <;> rfl
    | _ => rfl

/-- What an option does when it is looked at. -/
def CommandOption.raised (env : Environment) : Option CommandOption → PendingFlags × Environment
  | some .cached => (.start, { env with cacheEnabled := true })
  | option => (flagsOf option, env)

theorem raiseFlag_start (v : Bytes) (env : Environment) :
    raiseFlag v .start env = CommandOption.raised env (optionOf v) := by
  simp only [optionOf, apply_ite (CommandOption.raised env)]
  rfl

theorem raised_eq (env : Environment) (option : Option CommandOption) :
    CommandOption.raised env option = (flagsOf option,
      { env with cacheEnabled := env.cacheEnabled || decide (option = some .cached) }) := by
  rcases option with - | option
  · simp [CommandOption.raised]
  · cases option <;> simp [CommandOption.raised, flagsOf]

/-- The environment after a value and an option. -/
theorem raised_set_environmentOf {env : Environment}
    (hset : CommandOption.set v (environmentOf args) (lastOption args) = .ok env) :
    (CommandOption.raised env (optionOf v)).2 = environmentOf (args ++ [v]) := by
  rw [raised_eq]
  cases hlast : lastOption args with
  | none =>
    rw [hlast] at hset
    obtain rfl := Except.ok.inj hset
    simp [environmentOf, lastNumber, lastOf_concat, hlast]
  | some option =>
    rw [hlast] at hset
    cases option with
    | port | timeout =>
      cases hv : stoi v with
      | error e =>
        rw [CommandOption.set, hv] at hset
        cases hset
      | ok n =>
        rw [CommandOption.set, hv] at hset
        obtain rfl := Except.ok.inj hset
        simp [environmentOf, lastNumber, lastOf_concat, hlast, hv, Except.toOption]
    | _ =>
      obtain rfl := Except.ok.inj hset
      simp [environmentOf, lastNumber, lastOf_concat, hlast]

/-- A value is taken exactly when it is a number where it has to be. -/
theorem set_isOk_iff (v : Bytes) (env : Environment) (option : Option CommandOption) :
    (∃ env', CommandOption.set v env option = .ok env') ↔
      ((∃ o ∈ [CommandOption.port, .timeout], option = some o) → (stoi v).isOk = true) := by
  rcases option with - | option
  · simp [CommandOption.set]
  · cases option with
    | port | timeout =>
      cases hv : stoi v <;>
        simp [CommandOption.set, hv, Except.map, Except.isOk, Except.toBool]
    | _ => simp [CommandOption.set]

/-- After some arguments the environment is the one that they give, and the last one of them may
wait for its value. -/
theorem argumentsLoop_eq_ok_iff (hfits : NumbersFit args) (r : PendingFlags × Environment) :
    argumentsLoop rest (flagsOf (lastOption args)) (environmentOf args) = .ok r ↔
      NumbersFit (args ++ rest) ∧
        r = (flagsOf (lastOption (args ++ rest)), environmentOf (args ++ rest)) := by
  induction rest generalizing args with
  | nil =>
    rw [List.append_nil, argumentsLoop, Except.ok.injEq, eq_comm]
    exact (and_iff_right hfits).symm
  | cons v rest ih =>
    have hset := set_isOk_iff v (environmentOf args) (lastOption args)
    rw [List.append_cons, argumentsLoop, takeValue_flagsOf]
    cases hv : CommandOption.set v (environmentOf args) (lastOption args) with
    | error e =>
      rw [hv] at hset
      refine iff_of_false (fun h => nomatch h) fun h => ?_
      obtain ⟨env, henv⟩ := hset.mpr ((numbersFit_concat args v).mp h.1.of_append).2
      cases henv
    | ok env =>
      have hnext := raised_set_environmentOf hv
      have hfits' := (numbersFit_concat args v).mpr ⟨hfits, hset.mp ⟨env, hv⟩⟩
      rw [← ih hfits', ← hnext, lastOption_concat]
      change (argumentsLoop rest (raiseFlag v .start env).1 (raiseFlag v .start env).2 = .ok r) ↔ _
      rw [raiseFlag_start, raised_eq]

/-- The arguments are read exactly when the values that have to be numbers are, and then the
environment is the one that the neighbouring arguments give. -/
theorem setEnvironment_eq_ok_iff (args : List Bytes) (env : Environment) :
    setEnvironment args = .ok env ↔ NumbersFit args ∧ env = environmentOf args := by
  have hloop := @argumentsLoop_eq_ok_iff [] args fun _ hv => absurd hv List.not_mem_nil
  rw [List.nil_append] at hloop
  constructor
  · intro hok
    obtain ⟨r, hr, henv⟩ := of_bind_ok hok
    obtain ⟨hfits, rfl⟩ := (hloop r).mp hr
    exact ⟨hfits, (Except.ok.inj henv).symm⟩
  · rintro ⟨hfits, rfl⟩
    rw [setEnvironment]
    change (argumentsLoop args (flagsOf (lastOption [])) (environmentOf []) >>= _) = _
    rw [(hloop _).mpr ⟨hfits, rfl⟩]
    rfl

end

/-- The value of an option is looked at as an option too. -/
example : setEnvironment [ascii "-port", ascii "8080", ascii "-db", ascii "-cached"] =
    .ok { Environment.start with
      dbPath := ascii "-cached", portNumber := 8080, cacheEnabled := true } := by rfl

/-! ## What the process runs -/

/-- The port of a broker: the third part of its URL. `tokens[2]` of two parts is outside of the
vector. -/
def brokerPort (tokens : List Bytes) : Except Failure ℤ :=
  if 1 < tokens.length then
    match tokens[2]? with
    | some token => stoi token
    | none => .error .undefined
  else .ok 5556

/-- `Core::run`, up to the thread. Its handler stops none of these failures, which are not runtime
errors. -/
def Environment.run (env : Environment) : Except Failure (Option Role) :=
  if env.broker then do
    let portNumber ← brokerPort (splitTokens env.brokerBindUrl 58)
    -- Without a URL for its publisher a broker publishes on the next port, an `int`.
    if env.producerUrl = [] ∧ 2 ^ 31 ≤ portNumber + 1 then .error .undefined
    else .ok (some (.broker (decide (env.sinkUrl ≠ []))))
  else if env.writer then
    let (producerUrl, consumerUrl, sinkUrl) :=
      writerUrls env.producerUrl env.consumerUrl env.sinkUrl
    .ok (some (.writer (runWriter env.brokerUrl producerUrl consumerUrl sinkUrl)))
  else if env.reader then .ok (some .reader)
  else .ok none

/-- The process for a command line. -/
def launch (args : List Bytes) : Except Failure (Option Role) := do
  (← setEnvironment args).run

/-- The role that an environment asks for. A broker is no writer, and a writer is no reader. -/
def Environment.role (env : Environment) : Option Role :=
  if env.broker then some (.broker (decide (env.sinkUrl ≠ [])))
  else if env.writer then
    let urls := writerUrls env.producerUrl env.consumerUrl env.sinkUrl
    some (.writer (runWriter env.brokerUrl urls.1 urls.2.1 urls.2.2))
  else if env.reader then some .reader
  else none

/-- The URL of a broker has a port that can be read, and the next one is a number. -/
def Environment.PortReads (env : Environment) : Prop :=
  env.broker = true → ∃ port, brokerPort (splitTokens env.brokerBindUrl 58) = .ok port ∧
    (env.producerUrl = [] → port + 1 < 2 ^ 31)

theorem run_eq_ok_iff (env : Environment) (role : Option Role) :
    env.run = .ok role ↔ env.PortReads ∧ role = env.role := by
  unfold Environment.run Environment.PortReads Environment.role
  cases hbroker : env.broker with
  | false =>
    simp only [Bool.false_eq_true, if_false, false_imp_iff, true_and]
    cases env.writer <;> cases env.reader <;> simp [eq_comm]
  | true =>
    simp only [if_true, true_imp_iff]
    cases hport : brokerPort (splitTokens env.brokerBindUrl 58) with
    | error e => exact iff_of_false (fun h => nomatch h) fun ⟨⟨_, h, _⟩, _⟩ => nomatch h
    | ok port =>
      change (if _ then _ else _) = _ ↔ _
      split
      · next h =>
        refine iff_of_false (fun h => nomatch h) fun ⟨⟨port', heq, hnext⟩, _⟩ => ?_
        obtain rfl := Except.ok.inj heq
        have := hnext h.1
        omega
      · next h =>
        rw [Except.ok.injEq, eq_comm, and_iff_right]
        exact ⟨port, rfl, fun hurl => not_le.mp fun hle => h ⟨hurl, hle⟩⟩

/-- The threads that save are those of the later writers of a chain and of the readers. -/
theorem saves_role_iff (env : Environment) :
    env.role.any Role.saves = true ↔ env.broker = false ∧
      if env.writer then env.brokerUrl = ascii "+" ∨ env.brokerUrl = ascii "."
      else env.reader = true := by
  have hfirst : ascii "+" ≠ ascii "-" ∧ ascii "." ≠ ascii "-" := by decide
  unfold Environment.role
  cases env.broker with
  | true => simp [Role.saves]
  | false =>
    cases env.writer with
    | false => cases env.reader <;> simp [Role.saves]
    | true =>
      simp only [Bool.false_eq_true, if_false, if_true, Option.any_some, Role.saves, runWriter,
        true_and]
      by_cases hplus : env.brokerUrl = ascii "+"
      · simp [hplus, hfirst.1]
      · by_cases hdot : env.brokerUrl = ascii "."
        · simp [hdot, hfirst.2]
        · simp [hplus, hdot]

/-- What the other threads of the process read of the environment. -/
def Environment.config (env : Environment) (dbOk : Bool) : Config where
  dbOk := dbOk
  cacheEnabled := env.cacheEnabled
  writer := env.writer
  logger := env.hasLogger

/-- A broker binds no producer, though it may be a writer too. -/
theorem produces_role_iff (env : Environment) :
    env.role.any Role.produces = true ↔
      env.broker = false ∧ env.writer = true ∧ env.producerUrl ≠ ascii "!" := by
  have hdefault : ascii "tcp://*:5557" ≠ ascii "!" ∧ [] ≠ ascii "!" := by decide
  unfold Environment.role
  cases env.broker with
  | true => simp [Role.produces]
  | false =>
    cases env.writer with
    | false => cases env.reader <;> simp [Role.produces]
    | true =>
      simp only [Bool.false_eq_true, if_false, if_true, Option.any_some, Role.produces, runWriter,
        true_and]
      refine decide_eq_true_iff.trans ?_
      rw [writerUrls]
      split
      · next hurl => exact iff_of_true hdefault.1 (hurl ▸ hdefault.2)
      · exact Iff.rfl

/-- Other nodes hear of the changes of a process, and it saves none of theirs, exactly when it is
a writer with a producer and no later writer of a chain. -/
theorem origin_iff (env : Environment) (dbOk : Bool) :
    ((env.config dbOk).writer = true ∧ env.role.any Role.produces = true ∧
        env.role.any Role.saves = false) ↔
      env.broker = false ∧ env.writer = true ∧ env.producerUrl ≠ ascii "!" ∧
        env.brokerUrl ≠ ascii "+" ∧ env.brokerUrl ≠ ascii "." := by
  have hsaves : env.role.any Role.saves = false ↔ _ :=
    Bool.eq_false_iff.trans (not_congr (saves_role_iff env))
  rw [produces_role_iff, hsaves]
  cases hbroker : env.broker <;> cases hwriter : env.writer <;> simp [Environment.config, hwriter]

end Quarks
