import TwinClasses.Syntax.SourceFile

set_option autoImplicit false

/-! Structural equality of syntax trees, as a test. -/

namespace TwinClasses

mutual

def Node.beq : Node → Node → Bool
  | .token t, .token u => t = u
  | .group g, .group h => g.beq h
  | .classDecl c, .classDecl d => c.beq d
  | .forOf k a h, .forOf k' a' h' => k = k' && a = a' && h.beq h'
  | .await k o, .await k' o' => k = k' && Node.beqAll o o'
  | .access o d n, .access o' d' n' => o = o' && d = d' && n = n'
  | .typeRef r, .typeRef s => r.beq s
  | _, _ => false

def Node.beqAll : List Node → List Node → Bool
  | [], [] => true
  | n :: ns, m :: ms => n.beq m && Node.beqAll ns ms
  | _, _ => false

def Group.beq : Group → Group → Bool
  | ⟨d, o, ns, c⟩, ⟨d', o', ns', c'⟩ => d = d' && o = o' && Node.beqAll ns ns' && c = c'

def Group.beqOption : Option Group → Option Group → Bool
  | none, none => true
  | some g, some h => g.beq h
  | _, _ => false

def Clause.beq : Clause → Clause → Bool
  | ⟨m, ns⟩, ⟨m', ns'⟩ => m = m' && Node.beqAll ns ns'

def Clause.beqAll : List Clause → List Clause → Bool
  | [], [] => true
  | c :: cs, d :: ds => c.beq d && Clause.beqAll cs ds
  | _, _ => false

def Clause.beqOption : Option Clause → Option Clause → Bool
  | none, none => true
  | some c, some d => c.beq d
  | _, _ => false

def TypeRef.beq : TypeRef → TypeRef → Bool
  | ⟨n, p, a⟩, ⟨n', p', a'⟩ => n = n' && p = p' && TypeArguments.beqOption a a'

def TypeArguments.beq : TypeArguments → TypeArguments → Bool
  | ⟨o, as, c⟩, ⟨o', as', c'⟩ => o = o' && TypeArgument.beqAll as as' && c = c'

def TypeArguments.beqOption : Option TypeArguments → Option TypeArguments → Bool
  | none, none => true
  | some a, some b => a.beq b
  | _, _ => false

def TypeArgument.beq : TypeArgument → TypeArgument → Bool
  | ⟨ns, c⟩, ⟨ns', c'⟩ => Node.beqAll ns ns' && c = c'

def TypeArgument.beqAll : List TypeArgument → List TypeArgument → Bool
  | [], [] => true
  | a :: as, b :: bs => a.beq b && TypeArgument.beqAll as bs
  | _, _ => false

def ClassDecl.beq : ClassDecl → ClassDecl → Bool
  | ⟨k, n, h, o, ms, c, e⟩, ⟨k', n', h', o', ms', c', e'⟩ =>
    k = k' && n = n' && Node.beqAll h h' && o = o' && Member.beqAll ms ms' && c = c' && e = e'

def Member.beq : Member → Member → Bool
  | .method m, .method m' => m.beq m'
  | .getter g, .getter g' => g.beq g'
  | .other ns, .other ns' => Node.beqAll ns ns'
  | _, _ => false

def Member.beqAll : List Member → List Member → Bool
  | [], [] => true
  | m :: ms, n :: ns => m.beq n && Member.beqAll ms ns
  | _, _ => false

def Method.beq : Method → Method → Bool
  | ⟨l, ds, ms, a, n, q, ts, ps, r, b, t⟩, ⟨l', ds', ms', a', n', q', ts', ps', r', b', t'⟩ =>
    l = l' && Clause.beqAll ds ds' && ms = ms' && a = a' && n.beq n' && q = q'
      && Node.beqAll ts ts' && ps.beq ps' && Clause.beqOption r r' && Group.beqOption b b' && t = t'

def Getter.beq : Getter → Getter → Bool
  | ⟨l, ds, ms, k, n, ps, r, b, t⟩, ⟨l', ds', ms', k', n', ps', r', b', t'⟩ =>
    l = l' && Clause.beqAll ds ds' && ms = ms' && k = k' && n.beq n' && ps.beq ps'
      && Clause.beqOption r r' && Group.beqOption b b' && t = t'

def MemberName.beq : MemberName → MemberName → Bool
  | .identifier t, .identifier u => t = u
  | .literal t, .literal u => t = u
  | .computed g, .computed h => g.beq h
  | _, _ => false

def ParameterList.beq : ParameterList → ParameterList → Bool
  | ⟨o, ps, c⟩, ⟨o', ps', c'⟩ => o = o' && Parameter.beqAll ps ps' && c = c'

def Parameter.beq : Parameter → Parameter → Bool
  | ⟨ms, r, b, q, a, i, c⟩, ⟨ms', r', b', q', a', i', c'⟩ =>
    ms = ms' && r = r' && b.beq b' && q = q' && Clause.beqOption a a' && Clause.beqOption i i'
      && c = c'

def Parameter.beqAll : List Parameter → List Parameter → Bool
  | [], [] => true
  | p :: ps, q :: qs => p.beq q && Parameter.beqAll ps qs
  | _, _ => false

def Binding.beq : Binding → Binding → Bool
  | .identifier t, .identifier u => t = u
  | .pattern g, .pattern h => g.beq h
  | _, _ => false

end

instance : BEq Node := ⟨Node.beq⟩

instance : BEq SourceFile :=
  ⟨fun f g => f.name = g.name && Node.beqAll f.nodes g.nodes && f.trailing = g.trailing⟩

end TwinClasses
