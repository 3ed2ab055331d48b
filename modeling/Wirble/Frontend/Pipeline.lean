import Wirble.Frontend.Expr
import Wirble.Mal.Lower
import Wirble.Mal.Peephole
import Wirble.Mal.Ssa
import Wirble.Tos.Stream
import Wirble.Wil.Validate
import Wirble.Wrs.Equinox
import Wirble.Wrs.StdRewrite
import Wirble.Wvm.Encode
import Wirble.Wvm.Verified

/-! The pipeline of the front end, from an expression tree to the value in register zero. -/

namespace Wirble

/-- The options of a compilation, where a path is what has been loaded from its file. -/
structure WirbleCompileOptions where
  target : Option String
  wrsRulesPath : Option (List WILRewriteRule)
  mrsRulesPath : Option (List MALRewriteRule)
  optimizationLevel : BitVec 32
  verifyIR : Bool

/-- The default options name the stock rule files. -/
def wirbleInitCompileOptions : WirbleCompileOptions where
  target := some "x86_64"
  wrsRulesPath := some arithmeticRules
  mrsRulesPath := some malPeepholeRules
  optimizationLevel := 2
  verifyIR := true

/-- An empty target stands for the default one. -/
def wirbleTargetOrDefault (options : WirbleCompileOptions) : String :=
  match options.target with
  | none | some "" => "x86_64"
  | some target => target

/-- The machine that the file of a target describes, if there is one. -/
def wirbleMachine (target : String) : Option MDSTargetKind :=
  if target = "x86_64" then some .x86_64
  else if target = "aarch64" then some .aarch64
  else if target = "wasm" then some .wasm
  else none

/-- An error message is a prefix and a detail. -/
def wirbleSetErrorf (label detail : String) : String := label ++ ": " ++ detail

section Stages

-- Each stage returns an error text or its result, and nothing where the fuel does not suffice.
variable (equivalent : WILContext → Option Nat → Option Nat → Bool) (lib : Equinox) (fuel : Nat)
  (options : WirbleCompileOptions)

/-- The rules of the rewriter: those of the named file, or else all built-in ones. -/
def wirbleRewriteSystem (ctx : WILContext) : WILRewriteSystem :=
  match options.wrsRulesPath with
  | some rules => wrsFileApplyToSystem rules .innermost (wilRewriteSystemCreate ctx)
  | none => wilRewriteSystemAddAllBuiltinRules (wilRewriteSystemCreate ctx)

/-- The graph with the value to return, rewritten unless the level is zero. -/
def wirbleNormalize (ctx : WILContext) (value : Nat) : Option (WILContext × Option Nat) :=
  if 0 < options.optimizationLevel then
    (wilRewriteSystemNormalize equivalent (fun ctx => wrsNormalizeWithEgraph ctx lib fuel) fuel
      (wirbleRewriteSystem options ctx) (some value) 16).map fun result =>
        (result.1.ctx, result.2.1.or (some value))
  else some (ctx, some value)

/-- The return node, which is only made in a graph that the verifier accepts. -/
def wirbleReturn (ctx : WILContext) (start : Nat) (normalized : Option Nat) :
    Except String WILContext :=
  let verified := if options.verifyIR then wilVerifyGraph ctx else (ctx, true)
  if verified.2 then .ok (wilMakeReturn verified.1 (some start) normalized).1
  else
    .error (wirbleSetErrorf "WIL verification failed"
      (verified.1.verifyError.getD "invalid graph"))

/-- From the folded expression to the graph with its return node. -/
def wirbleBuildWIL (expr : WirbleExpr) : Option (Except String WILContext) :=
  let (ctx, start) := wilMakeStart (WILContext.empty 0)
  let (ctx, value) := wirbleLowerExpr ctx expr
  (wirbleNormalize equivalent lib fuel options ctx value).map fun (ctx, normalized) =>
    wirbleReturn options ctx start normalized

/-- The peephole pass over the functions of a module, which ends where one is not accepted. -/
def wirblePeephole (rules : List MALRewriteRule) :
    List MALFunction → Option (Except String (List MALFunction))
  | [] => some (.ok [])
  | fn :: rest =>
    match malApplyPeepholeToFixpoint rules fuel fn with
    | none => none
    | some (_, fn) =>
      if options.verifyIR && !malVerifySSA fn then
        some (.error "MAL verification failed after peephole")
      else (wirblePeephole rules rest).map (·.map (fn :: ·))

/-- From the graph to a module, which the peephole pass rewrites unless the level is zero. -/
def wirbleBuildMAL (graph : WILGraph) : Option (Except String MALModule) :=
  let module := malLowerFromWIL graph (malModuleCreate (some (wirbleTargetOrDefault options)))
  if options.verifyIR && !module.functions.all malVerifySSA then
    some (.error "MAL verification failed")
  else if 0 < options.optimizationLevel then
    (wirblePeephole fuel options (options.mrsRulesPath.getD malPeepholeRules)
      module.functions).map (·.map fun functions => { module with functions })
  else some (.ok module)

/-- A built-in machine is valid as soon as it has instructions. -/
def mdsValidateMachine (machine : MDSMachine) : Bool := !machine.instructions.isEmpty

/-- The laid out stream, which the optimizer only lays out once more. -/
def wirbleFinalize (program : TOSProgram) : Except String TOSProgram :=
  if 0 < options.optimizationLevel then
    let (optimized, _, program) := tosOptimizeProgram (some ⟨0⟩) program
    if optimized then .ok program else .error "unable to optimize TOS program"
  else
    let (finalized, program) := tosFinalizeProgram program
    if finalized then .ok program else .error "unable to finalize TOS program"

/-- The bytecode of a stream, which the verifier may refuse. -/
def wirbleEncode (program : TOSProgram) (sourceName : CString) : Except String WVMPrototype :=
  if options.verifyIR && !tosValidateProgram program then .error "TOS verification failed"
  else
    match wvmPrototypeFromTOS program (some (cString ("main".toUTF8.data.toList.map (·.toBitVec))))
      (some sourceName) with
    | none => .error "unable to emit WVM bytecode"
    | some proto =>
      if options.verifyIR && !(wvmVerifyPrototype proto).isOk then .error "WVM verification failed"
      else .ok proto

/-- From the module to the bytecode. -/
def wirbleEmit (kind : MDSTargetKind) (module : MALModule) (sourceName : CString) :
    Except String WVMPrototype :=
  let machine := mdsLoadMachine kind
  if !mdsValidateMachine machine then .error "unable to load target machine"
  else
    match mdsLowerFromMAL module (some (mdsCreateSelector machine)) machine with
    | none => .error "unable to lower MAL to MDS"
    | some program =>
      (wirbleFinalize options (tosBuildFromMDS program)).bind fun stream =>
        wirbleEncode options stream sourceName

/-- `wirbleBuildPipelineArtifacts` after its parser, whose last step folds the tree. -/
def wirbleBuildPipelineArtifacts (expr : WirbleExpr) (sourceName : Option CString) :
    Option (Except String WVMPrototype) :=
  match wirbleMachine (wirbleTargetOrDefault options) with
  | none => some (.error "unsupported target")
  | some kind =>
    match wirbleBuildWIL equivalent lib fuel options (wirbleExprFoldConstants expr) with
    | none => none
    | some (.error text) => some (.error text)
    | some (.ok ctx) =>
      (wirbleBuildMAL fuel options ctx.graph).map fun result =>
        result.bind fun module => wirbleEmit options kind module
          (sourceName.getD (cString ("<input>".toUTF8.data.toList.map (·.toBitVec))))

/-- A register above the top of the stack reads as nil. -/
def wvmGetReg (vm : WVMState) (reg : Nat) : BitVec 64 :=
  if vm.stackSize.toNat ≤ reg then wvmValueNil else vm.stack reg

/-- The end of `wirbleExecuteSource`: what executing the bytecode leaves in register zero. -/
def wirbleExecutePrototype (proto : WVMPrototype) : Option (Except String (BitVec 64)) :=
  let run := wvmExecute wvmCreate proto fuel
  run.result.map fun succeeded =>
    if succeeded then .ok (wvmGetReg run.vm 0)
    else .error (wirbleSetErrorf "runtime error" (run.vm.lastError.getD "execution failed"))

/-- `wirbleExecuteSource` after its parser. -/
def wirbleExecuteSource (expr : WirbleExpr) (sourceName : Option CString) :
    Option (Except String (BitVec 64)) :=
  match wirbleBuildPipelineArtifacts equivalent lib fuel options expr sourceName with
  | none => none
  | some (.error text) => some (.error text)
  | some (.ok proto) => wirbleExecutePrototype fuel proto

end Stages

end Wirble
