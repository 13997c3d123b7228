import PseudoBoolean.Cnf.Models
import PseudoBoolean.Instance.Suite
import PseudoBoolean.Pool
import PseudoBoolean.Proofs.Answer
import PseudoBoolean.Proofs.Artifact
import PseudoBoolean.Proofs.Assignment
import PseudoBoolean.Proofs.Built
import PseudoBoolean.Proofs.Cnf.Reader
import PseudoBoolean.Proofs.Completeness
import PseudoBoolean.Proofs.Family.Binary
import PseudoBoolean.Proofs.Family.Extremes
import PseudoBoolean.Proofs.Family.Names
import PseudoBoolean.Proofs.Family.Scaling
import PseudoBoolean.Proofs.Linear.Tree
import PseudoBoolean.Proofs.Negation
import PseudoBoolean.Proofs.Opb.Flaw
import PseudoBoolean.Proofs.Opb.Numbering
import PseudoBoolean.Proofs.Programs
import PseudoBoolean.Proofs.Refusal
import PseudoBoolean.Proofs.Suite
