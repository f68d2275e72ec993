import Snapchain.Spec.Types
import Snapchain.Spec.Store
import Snapchain.Spec.Engine
import Snapchain.Spec.ShardProposer
import Snapchain.Spec.BlockProposer
import Snapchain.Spec.Node
import Snapchain.Proof.ShardSteps
import Snapchain.Proof.BlockSteps
import Snapchain.Proof.Tables
import Snapchain.Proof.Pending
import Snapchain.Proof.Chain
import Snapchain.Proof.Keys
import Snapchain.Proof.Store
import Snapchain.Proof.ShardTask
import Snapchain.Proof.Node
import Snapchain.Proof.StoreMap
import Snapchain.Proof.StoreEngine
import Snapchain.Proof.NodeStores
