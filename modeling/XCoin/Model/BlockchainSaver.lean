import XCoin.Model.FullNode

/-! # The database

    `BlockchainSaver.js` and the part of `FullNode.js` that reads the
    database back.  The collection is the list of its documents in insertion
    order.  A document has the fields of the object that was inserted, with
    unchanged values, and no class.
-/

namespace XCoin

open Js

/-- The document MongoDB stores for a block. -/
def Block.document (b : Block) : Block :=
  { b with transactions := b.transactions.plain, isBlock := false }

/-- The database: the documents of the collection `blockchain`. -/
structure Database where
  documents : List Block

namespace Database

/-- Remove all documents. -/
def deleteMany (_db : Database) : Database := ⟨[]⟩

/-- Creating a collection that exists has no effect, and neither has creating
    an empty one here, where a missing collection reads as empty. -/
def createCollection (db : Database) : Database := db

def insertMany (db : Database) (blockchain : List Block) : Database :=
  ⟨db.documents ++ blockchain.map Block.document⟩

end Database

/-- `saveBlockchainToDisk`, all its commands completed. -/
def saveBlockchainToDisk (db : Database) (blockchain : List Block) : Database :=
  (db.deleteMany.createCollection).insertMany blockchain

@[simp] theorem saveBlockchainToDisk_documents (db : Database) (c : List Block) :
    (saveBlockchainToDisk db c).documents = c.map Block.document := by
  simp [saveBlockchainToDisk, Database.deleteMany, Database.createCollection,
    Database.insertMany]

variable {E : Env} {ι : Type}

/-- The process after a restart: the state it starts in, after the restore
    callback and before any other event. -/
def Node.restart (cfg : Config E ι) (db : Database) : Node E :=
  ((Node.new cfg).restore db.documents).node

/-- The node saves its chain and is restarted. -/
def saveAndRestart (cfg : Config E ι) (s : Node E × Database) : Node E × Database :=
  let db := saveBlockchainToDisk s.2 s.1.chain
  (Node.restart cfg db, db)

end XCoin
