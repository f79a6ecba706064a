import SnarkyBn382.CeilPow2
import SnarkyBn382.IndexMapper
import SnarkyBn382.SparseMatrix
import SnarkyBn382.RowsToCsmat
import SnarkyBn382.WitnessAssembler
import SnarkyBn382.ConstraintPreservation
import SnarkyBn382.IndexCreate
import SnarkyBn382.PrevChallenges
import SnarkyBn382.BigInt
import SnarkyBn382.Field
